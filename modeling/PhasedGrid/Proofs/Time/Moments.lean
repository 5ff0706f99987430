import PhasedGrid.Time.Clock

/-!
Arithmetic of moments. Outside leap seconds a moment is its position in nanoseconds, and an offset
is added to it. A moment inside a leap second keeps its second until the leap second is over; from
then on it is one second behind. Within a day both kinds of moments are as far apart as the offsets
that lead to them.
-/

namespace PhasedGrid

set_option autoImplicit false

namespace Moment

/-- The nanoseconds since 1970, as if there were no leap seconds. -/
def position (m : Moment) : Int := m.seconds * Span.perSecond + m.nanos

/-- A moment outside leap seconds. -/
def Plain (m : Moment) : Prop := m.nanos < Span.perSecond

instance (m : Moment) : Decidable m.Plain := inferInstanceAs (Decidable (_ < _))

/-- The nanoseconds of a moment reach to the end of a leap second at most. -/
def Proper (m : Moment) : Prop := m.nanos < 2 * Span.perSecond

instance (m : Moment) : Decidable m.Proper := inferInstanceAs (Decidable (_ < _))

/-- Leap seconds come at the end of a minute only. -/
def Civil (m : Moment) : Prop := m.Plain ∨ m.Proper ∧ m.seconds % 60 = 59

instance (m : Moment) : Decidable m.Civil := inferInstanceAs (Decidable (_ ∨ _))

/-- The days since 1970; a leap second belongs to the day that it ends. -/
def day (m : Moment) : Int := m.seconds / secondsPerDay

/-- The nanoseconds of a day. -/
def perDay : Nat := secondsPerDay * Span.perSecond

variable {m n : Moment} {o p : Int}

theorem Plain.proper (h : m.Plain) : m.Proper := by
  unfold Plain at h
  unfold Proper
  omega

theorem Civil.proper (h : m.Civil) : m.Proper := h.elim Plain.proper And.left

theorem Plain.eq_of_position (hm : m.Plain) (hn : n.Plain) (h : m.position = n.position) :
    m = n := by
  obtain ⟨s, x⟩ := m
  obtain ⟨t, y⟩ := n
  simp only [Plain, position, Span.perSecond] at hm hn h
  obtain rfl : s = t := by omega
  obtain rfl : x = y := by omega
  rfl

/-- Whole seconds and the rest of an offset. -/
theorem offset_parts (o : Int) :
    o.tdiv Span.perSecond * Span.perSecond + o.tmod Span.perSecond = o ∧
      o.tmod Span.perSecond < Span.perSecond ∧ -(Span.perSecond : Int) < o.tmod Span.perSecond := by
  have hpos : (0 : Int) < Span.perSecond := by decide
  refine ⟨?_, Int.tmod_lt_of_pos o hpos, Int.lt_tmod_of_pos o hpos⟩
  rw [Int.mul_comm]
  exact Int.mul_tdiv_add_tmod o Span.perSecond

theorem carry_inv {s x : Int} (hl : -(Span.perSecond : Int) ≤ x) (hu : x < 2 * Span.perSecond) :
    0 ≤ (carry s x).2 ∧ (carry s x).2 < Span.perSecond ∧
      (carry s x).1 * Span.perSecond + (carry s x).2 = s * Span.perSecond + x := by
  have hpos : (0 : Int) < Span.perSecond := by decide
  unfold carry
  by_cases hneg : x < 0
  · rw [if_pos hneg]
    dsimp only
    rw [Int.sub_mul]
    omega
  rw [if_neg hneg]
  by_cases hover : (Span.perSecond : Int) ≤ x
  · rw [if_pos hover]
    dsimp only
    rw [Int.add_mul]
    omega
  · rw [if_neg hover]
    dsimp only
    omega

/-- Seconds and nanoseconds brought into order are a moment outside leap seconds. -/
theorem carry_plain {s x : Int} (hl : -(Span.perSecond : Int) ≤ x) (hu : x < 2 * Span.perSecond) :
    Plain ⟨(carry s x).1, (carry s x).2.toNat⟩ ∧
      position ⟨(carry s x).1, (carry s x).2.toNat⟩ = s * Span.perSecond + x := by
  obtain ⟨h0, h1, h2⟩ := carry_inv (s := s) hl hu
  constructor
  · unfold Plain
    dsimp only
    omega
  · unfold position
    simp only [Int.toNat_of_nonneg h0]
    exact h2

/-- Only nanoseconds beyond their second lead to a later one. -/
theorem carry_fst_le {s x : Int} (h : x < Span.perSecond) : (carry s x).1 ≤ s := by
  unfold carry
  split
  · dsimp only
    omega
  · exact Int.le_of_eq (congrArg Prod.fst (if_neg (Int.not_le.mpr h)))

section Shift

theorem shift_plain (h : m.Plain) (o : Int) :
    (m.shift o).Plain ∧ (m.shift o).position = m.position + o := by
  obtain ⟨hsum, hlt, hgt⟩ := offset_parts o
  have hm : (m.nanos : Int) < Span.perSecond := by exact_mod_cast h
  have hc := carry_plain (s := m.seconds + o.tdiv Span.perSecond)
    (x := m.nanos + o.tmod Span.perSecond) (by omega) (by omega)
  unfold shift
  dsimp only
  rw [if_neg (Nat.not_le.mpr h)]
  refine ⟨hc.1, hc.2.trans ?_⟩
  unfold position
  rw [Int.add_mul]
  omega

/-- Inside a leap second time goes on, and the second stays. -/
theorem shift_within (hl : ¬ m.Plain) (ho : 0 ≤ o) (h : m.nanos + o < 2 * Span.perSecond) :
    m.shift o = ⟨m.seconds, (m.nanos + o).toNat⟩ := by
  have hm : Span.perSecond ≤ m.nanos := Nat.not_lt.mp hl
  have hlt : o < Span.perSecond := by omega
  have hw : o.tdiv Span.perSecond = 0 := Int.tdiv_eq_zero_of_lt ho hlt
  have hr : o.tmod Span.perSecond = o := Int.tmod_eq_of_lt ho hlt
  unfold shift
  dsimp only
  rw [if_pos hm, hw, hr, if_neg (by omega), if_neg (by omega)]

/-- Past the end of a leap second time goes on from the next second. -/
theorem shift_beyond (hl : ¬ m.Plain) (hm : m.Proper) (ho : 0 ≤ o)
    (h : 2 * (Span.perSecond : Int) ≤ m.nanos + o) :
    (m.shift o).Plain ∧ (m.shift o).position = m.position + o - Span.perSecond := by
  obtain ⟨hsum, hlt, -⟩ := offset_parts o
  have hr : 0 ≤ o.tmod Span.perSecond := Int.tmod_nonneg Span.perSecond ho
  have hge : Span.perSecond ≤ m.nanos := Nat.not_lt.mp hl
  unfold Proper at hm
  have hc := carry_plain (s := m.seconds + o.tdiv Span.perSecond)
    (x := (m.nanos : Int) - Span.perSecond + o.tmod Span.perSecond) (by omega) (by omega)
  have hout : 0 < o.tdiv Span.perSecond ∨ (0 < o.tmod Span.perSecond ∧
      2 * (Span.perSecond : Int) - o.tmod Span.perSecond ≤ m.nanos) := by
    have hw : 0 ≤ o.tdiv Span.perSecond := Int.tdiv_nonneg ho (by decide)
    rcases Int.lt_or_eq_of_le hw with hw | hw
    · exact Or.inl hw
    · rw [← hw, Int.zero_mul, Int.zero_add] at hsum
      omega
  unfold shift
  dsimp only
  rw [if_pos hge, if_pos hout]
  refine ⟨hc.1, hc.2.trans ?_⟩
  unfold position
  rw [Int.add_mul]
  omega

theorem shift_zero (hm : m.Proper) : m.shift 0 = m := by
  by_cases hl : m.Plain
  · obtain ⟨hp, he⟩ := shift_plain hl 0
    exact hp.eq_of_position hl (by omega)
  · unfold Proper at hm
    rw [shift_within hl (Int.le_refl 0) (by omega)]
    simp

/-- Offsets one after the other are their sum. -/
theorem shift_shift (hm : m.Proper) (ho : 0 ≤ o) (hp : 0 ≤ p) :
    (m.shift o).shift p = m.shift (o + p) := by
  have hsum : 0 ≤ o + p := by omega
  by_cases hl : m.Plain
  · obtain ⟨h1, e1⟩ := shift_plain hl o
    obtain ⟨h2, e2⟩ := shift_plain h1 p
    obtain ⟨h3, e3⟩ := shift_plain hl (o + p)
    exact h2.eq_of_position h3 (by omega)
  by_cases hin : m.nanos + o < 2 * Span.perSecond
  · have hge : Span.perSecond ≤ m.nanos := Nat.not_lt.mp hl
    have hnanos : ((m.nanos + o).toNat : Int) = m.nanos + o := by omega
    have hl' : ¬ Plain ⟨m.seconds, (m.nanos + o).toNat⟩ := by
      unfold Plain
      dsimp only
      omega
    rw [shift_within hl ho hin]
    by_cases hin' : m.nanos + (o + p) < 2 * Span.perSecond
    · rw [shift_within hl hsum hin', shift_within hl' hp (by dsimp only; omega)]
      congr 2
      dsimp only
      omega
    · have hm' : Proper ⟨m.seconds, (m.nanos + o).toNat⟩ := by
        unfold Proper
        dsimp only
        omega
      obtain ⟨h2, e2⟩ := shift_beyond hl' hm' hp (by dsimp only; omega)
      obtain ⟨h3, e3⟩ := shift_beyond hl hm hsum (by omega)
      refine h2.eq_of_position h3 ?_
      rw [e2, e3]
      unfold position
      dsimp only
      omega
  · obtain ⟨h1, e1⟩ := shift_beyond hl hm ho (by omega)
    obtain ⟨h2, e2⟩ := shift_plain h1 p
    obtain ⟨h3, e3⟩ := shift_beyond hl hm hsum (by omega)
    exact h2.eq_of_position h3 (by omega)

/-- Offsets back out of a leap second stay in its second or reach a moment outside leap seconds. -/
theorem shift_back (hm : m.Proper) (ho : 0 ≤ o) :
    (m.shift (-o)).position = m.position - o ∧ (m.shift (-o)).seconds ≤ m.seconds ∧
      ((m.shift (-o)).Plain ∨ (m.shift (-o)).seconds = m.seconds) := by
  by_cases hl : m.Plain
  · obtain ⟨hp, he⟩ := shift_plain hl (-o)
    refine ⟨he.trans (by omega), ?_, Or.inl hp⟩
    simp only [Plain, position, Span.perSecond] at hl hp he
    omega
  obtain ⟨hsum, -, hgt⟩ := offset_parts (-o)
  have hge : Span.perSecond ≤ m.nanos := Nat.not_lt.mp hl
  have hw : (-o).tdiv Span.perSecond ≤ 0 := by
    rw [Int.neg_tdiv]
    exact Int.neg_nonpos_of_nonneg (Int.tdiv_nonneg ho (by decide))
  have hr : (-o).tmod Span.perSecond ≤ 0 := by
    rw [Int.neg_tmod]
    exact Int.neg_nonpos_of_nonneg (Int.tmod_nonneg _ ho)
  unfold Proper at hm
  unfold shift
  dsimp only
  rw [if_pos hge, if_neg (by omega)]
  by_cases hwhole : (-o).tdiv Span.perSecond < 0
  · rw [if_pos hwhole]
    have hc := carry_plain (s := m.seconds + 1 + (-o).tdiv Span.perSecond)
      (x := (m.nanos : Int) - Span.perSecond + (-o).tmod Span.perSecond) (by omega) (by omega)
    have hle := carry_fst_le (s := m.seconds + 1 + (-o).tdiv Span.perSecond)
      (x := (m.nanos : Int) - Span.perSecond + (-o).tmod Span.perSecond) (by omega)
    refine ⟨hc.2.trans ?_, ?_, Or.inl hc.1⟩
    · unfold position
      rw [Int.add_mul, Int.add_mul]
      omega
    · dsimp only
      omega
  · have hzero : (-o).tdiv Span.perSecond = 0 := by omega
    rw [if_neg hwhole]
    rw [hzero, Int.zero_mul, Int.zero_add] at hsum
    refine ⟨?_, Int.le_refl _, Or.inr rfl⟩
    unfold position
    dsimp only
    omega

theorem shift_proper (hm : m.Proper) (ho : 0 ≤ o) : (m.shift o).Proper := by
  by_cases hl : m.Plain
  · exact (shift_plain hl o).1.proper
  by_cases hin : m.nanos + o < 2 * Span.perSecond
  · rw [shift_within hl ho hin]
    unfold Proper
    dsimp only
    omega
  · exact (shift_beyond hl hm ho (by omega)).1.proper

end Shift

theorem since_plain (hm : m.Plain) (hn : n.Plain) : m.since n = m.position - n.position := by
  unfold since position
  rw [if_neg fun h => Nat.not_le.mpr hn h.2, if_neg fun h => Nat.not_le.mpr hm h.2]
  dsimp only
  rw [Int.add_zero, Int.sub_mul]
  omega

/-- Within a day the time between two moments is the difference of the offsets that lead there. -/
theorem since_shift (hm : m.Proper) (ho : 0 ≤ o) (hop : o ≤ p)
    (hday : (m.shift p).day = (m.shift o).day) : (m.shift p).since (m.shift o) = p - o := by
  have hp : 0 ≤ p := by omega
  by_cases hl : m.Plain
  · obtain ⟨h1, e1⟩ := shift_plain hl o
    obtain ⟨h2, e2⟩ := shift_plain hl p
    rw [since_plain h2 h1]
    omega
  have hge : Span.perSecond ≤ m.nanos := Nat.not_lt.mp hl
  by_cases hino : m.nanos + o < 2 * Span.perSecond
  · have e1 := shift_within hl ho hino
    by_cases hinp : m.nanos + p < 2 * Span.perSecond
    · have e2 := shift_within hl hp hinp
      rw [e1, e2]
      unfold since secondOfDay
      dsimp only
      rw [if_neg fun h => Nat.lt_irrefl _ h.1, if_neg fun h => Nat.lt_irrefl _ h.1]
      omega
    · -- the leap second ends in between, and the later moment is of a later second of the day
      obtain ⟨h2, e2⟩ := shift_beyond hl hm hp (by omega)
      rw [e1] at hday ⊢
      have hlt : (secondOfDay ⟨m.seconds, (m.nanos + o).toNat⟩) < (m.shift p).secondOfDay := by
        simp only [Plain, position, day, Span.perSecond, secondsPerDay] at h2 e2 hday hge hinp
        simp only [secondOfDay, secondsPerDay]
        omega
      unfold since
      rw [if_pos ⟨hlt, by dsimp only; omega⟩]
      simp only [position, Span.perSecond] at e2 hge ⊢
      omega
  · obtain ⟨h1, e1⟩ := shift_beyond hl hm ho (by omega)
    obtain ⟨h2, e2⟩ := shift_beyond hl hm hp (by omega)
    rw [since_plain h2 h1]
    omega

/-- A leap second that passes unseen takes at most half of the way back to a moment. -/
theorem since_shift_back (hm : m.Civil) (ho : 0 < o) :
    m.since (m.shift (-o)) ≤ o ∧ o < 2 * m.since (m.shift (-o)) := by
  obtain ⟨hpos, hbefore, hback⟩ := shift_back hm.proper (Int.le_of_lt ho)
  generalize m.shift (-o) = earlier at hpos hbefore hback
  have hsince : m.position - earlier.position = o := by omega
  have hunpassed : ¬ (earlier.secondOfDay < m.secondOfDay ∧ Span.perSecond ≤ earlier.nanos) := by
    rintro ⟨hlt, hleap⟩
    rcases hback with hplain | hsame
    · exact absurd hplain (Nat.not_lt.mpr hleap)
    · unfold secondOfDay at hlt
      rw [hsame] at hlt
      exact Nat.lt_irrefl _ hlt
  unfold since
  rw [if_neg hunpassed]
  by_cases hpassed : m.secondOfDay < earlier.secondOfDay ∧ Span.perSecond ≤ m.nanos
  · -- The earlier moment is of another day, so there is most of a minute in between.
    rw [if_pos hpassed]
    obtain ⟨hlt, hleap⟩ := hpassed
    have hminute : m.seconds % 60 = 59 := (hm.resolve_left (Nat.not_lt.mpr hleap)).2
    have hearlier : earlier.Plain := by
      refine hback.resolve_right fun hsame => ?_
      unfold secondOfDay at hlt
      rw [hsame] at hlt
      exact Nat.lt_irrefl _ hlt
    simp only [Plain, position, Span.perSecond] at hearlier hsince hleap
    have haway : earlier.seconds + 60 ≤ m.seconds := by
      unfold secondOfDay secondsPerDay at hlt
      omega
    simp only [Span.perSecond]
    omega
  · rw [if_neg hpassed]
    dsimp only
    rw [Int.add_zero, Int.sub_mul]
    unfold position at hsince
    omega

section Day

/-- The whole milliseconds since midnight. -/
def millisOfDay (m : Moment) : Nat := (m.position % perDay).toNat / Span.perMilli

theorem timeOfDay_plain (h : m.Plain) : m.timeOfDay = .ofMillis m.millisOfDay := by
  unfold timeOfDay millisOfDay secondOfDay position
  congr 1
  simp only [Plain, Span.perSecond] at h
  simp only [Span.perSecond, Span.perMilli, perDay, secondsPerDay]
  omega

theorem millisOfDay_lt (m : Moment) : m.millisOfDay < 86400000 := by
  unfold millisOfDay
  simp only [perDay, secondsPerDay, Span.perSecond, Span.perMilli]
  omega

/-- What comes before a moment of the day is of that day. -/
theorem day_shift_of_le (h : m.Plain) (ho : 0 ≤ o) (hop : o ≤ p) (hday : (m.shift p).day = m.day) :
    (m.shift o).day = m.day := by
  obtain ⟨h1, e1⟩ := shift_plain h o
  obtain ⟨h2, e2⟩ := shift_plain h p
  simp only [Plain, position, day, secondsPerDay, Span.perSecond] at h h1 h2 e1 e2 hday ⊢
  omega

/-- Whole milliseconds later on the same day. -/
theorem millisOfDay_shift (h : m.Plain) {ms : Nat}
    (hday : (m.shift (Span.ofMillis ms).nanos).day = m.day) :
    (m.shift (Span.ofMillis ms).nanos).millisOfDay = m.millisOfDay + ms := by
  obtain ⟨hp, he⟩ := shift_plain h (Span.ofMillis ms).nanos
  unfold millisOfDay
  simp only [Plain, position, day, perDay, secondsPerDay, Span.perSecond, Span.perMilli,
    Span.ofMillis] at h hp he hday ⊢
  omega

end Day

theorem add_eq_ok (h : m.add o = .ok n) : n = m.shift o := by
  unfold add at h
  dsimp only at h
  split at h
  · exact (Except.ok.inj h).symm
  · cases h

end Moment

namespace Clock

variable {c : Clock} {m n : Moment}

theorem read_eq_ok (hs : c.still = false) {ms : Nat} (hfit : ms ≤ longestOffset)
    (h : c.read (.ofMillis ms) = .ok m) :
    m = (c.origin.shift (Span.ofMillis ms).nanos).shift c.skew := by
  have hlong : (Span.ofMillis ms).nanos ≤ longestOffset * Span.perMilli :=
    Nat.mul_le_mul_right _ hfit
  unfold read at h
  rw [hs, offsetOf?, if_pos hlong, if_neg (by decide), Option.getD_some] at h
  cases hadd : c.origin.add (Span.ofMillis ms).nanos with
  | error fault =>
    rw [hadd] at h
    cases h
  | ok k =>
    rw [hadd] at h
    rw [Moment.add_eq_ok h, Moment.add_eq_ok hadd]

/-- A clock that runs goes on by the time that has passed. Only a skew back out of a leap second
makes it jump. -/
theorem read_later (hs : c.still = false)
    (ho : c.origin.Plain ∨ c.origin.Proper ∧ 0 ≤ c.skew) {ms later : Nat}
    (hfit : ms + later ≤ longestOffset) (hm : c.read (.ofMillis ms) = .ok m)
    (hn : c.read (.ofMillis (ms + later)) = .ok n) : n = m.shift (Span.ofMillis later).nanos := by
  have hsum : ((Span.ofMillis (ms + later)).nanos : Int) =
      (Span.ofMillis ms).nanos + (Span.ofMillis later).nanos := by
    simp only [Span.ofMillis, Nat.add_mul]
    omega
  rw [read_eq_ok hs (Nat.le_of_add_right_le hfit) hm, read_eq_ok hs hfit hn, hsum]
  rcases ho with ho | ⟨ho, hskew⟩
  · obtain ⟨h1, e1⟩ :=
      Moment.shift_plain ho ((Span.ofMillis ms).nanos + (Span.ofMillis later).nanos)
    obtain ⟨h2, e2⟩ := Moment.shift_plain h1 c.skew
    obtain ⟨h3, e3⟩ := Moment.shift_plain ho (Span.ofMillis ms).nanos
    obtain ⟨h4, e4⟩ := Moment.shift_plain h3 c.skew
    obtain ⟨h5, e5⟩ := Moment.shift_plain h4 (Span.ofMillis later).nanos
    exact h2.eq_of_position h5 (by omega)
  · rw [Moment.shift_shift ho (by omega) hskew, Moment.shift_shift ho (by omega) hskew,
      Moment.shift_shift ho (by omega) (by omega)]
    congr 1
    omega

end Clock

end PhasedGrid
