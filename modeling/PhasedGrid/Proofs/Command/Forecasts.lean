import PhasedGrid.Command.Forecast
import PhasedGrid.Config.Validation
import PhasedGrid.Proofs.Schedule.Walks
import PhasedGrid.Schedule.Roster

/-!
Phases foretold. The listing of the phases after a time of day goes from module to module by the
settings alone; the cursor goes by its roster and looks at the clock now and then. Both stay on the
natural phases of the day, so up to midnight they agree, provided that no phase is empty: the roster
gives an empty phase a millisecond, and the listing does not.
-/

namespace PhasedGrid

set_option autoImplicit false

open PhasedGrid.Config (ModuleSetting Settings)
open PhasedGrid.Schedule

namespace Moment

/-- What begins before midnight is of the same day. -/
theorem day_shift_of_lt {m : Moment} (h : m.Plain) {ms : Nat}
    (hms : m.millisOfDay + ms < 86400000) : (m.shift (Span.ofMillis ms).nanos).day = m.day := by
  obtain ⟨hp, he⟩ := shift_plain h (Span.ofMillis ms).nanos
  unfold millisOfDay at hms
  simp only [Plain, position, day, perDay, secondsPerDay, Span.perSecond, Span.perMilli,
    Span.ofMillis] at h hp he hms ⊢
  omega

end Moment

namespace Schedule

variable {lengths : List Nat} {x i r : Nat}

/-- What is left of a phase is no more than the whole of it. -/
theorem locate_remaining_le (h : locate lengths x = some ⟨i, r⟩) : ∃ l ∈ lengths, r ≤ l := by
  obtain ⟨hi, hlow, -, hsum⟩ := locate_eq_some_iff.mp h
  refine ⟨lengths[i], List.getElem_mem hi, ?_⟩
  rw [List.take_succ_eq_append_getElem hi, List.sum_append, List.sum_singleton] at hsum
  omega

theorem naturalOfMillis_of_words (hne : lengths.sum ≠ 0) (hword : ∀ l ∈ lengths, l ≤ longestRemaining)
    (time : Nat) : naturalOfMillis lengths time = locate lengths (time % lengths.sum) := by
  rw [naturalOfMillis_eq hne]
  obtain ⟨p, hp⟩ := locate_isSome (Nat.mod_lt time (Nat.pos_of_ne_zero hne))
  obtain ⟨l, hl, hle⟩ := locate_remaining_le hp
  have hcap := hword l hl
  rw [hp, Option.map_some, NaturalPhase.capped, Nat.min_eq_left (Nat.le_trans hle hcap)]

namespace Cursor

variable {c : Cursor} {now : Moment} {k : Nat}

/-- The walk that is never late. -/
def punctual (c : Cursor) (lengths : List Nat) (now : Moment) : Nat → Leg :=
  c.walk (lengths.map .ofMillis) now fun _ => 0

theorem punctual_succ_time (c : Cursor) (lengths : List Nat) (now : Moment) (k : Nat) :
    (c.punctual lengths now (k + 1)).time =
      (c.punctual lengths now k).time.shift (c.punctual lengths now k).duration.nanos := by
  unfold punctual
  rw [walk_succ_time]
  simp [Span.ofMillis]

theorem punctual_aligned (hne : lengths ≠ []) (hpos : ∀ l ∈ lengths, 1 ≤ l)
    (hdue : c.alignmentDue now) : (c.punctual lengths now 0).aligned := by
  obtain ⟨p, hp, hlen⟩ := exists_phase hne hpos
  obtain ⟨s, hs, hadv⟩ := walk_advancing hp hlen c now (fun _ => 0) 0
  unfold punctual
  rw [Leg.aligned_of_step hs, hadv.due]
  exact hdue

/-- Every step of the punctual walk is the natural phase of its time, with nothing cut off from
phases that fit a word. -/
theorem punctual_natural (hne : lengths ≠ []) (hpos : ∀ l ∈ lengths, 1 ≤ l)
    (hword : ∀ l ∈ lengths, l ≤ longestRemaining) (ht : now.Plain) (hdue : c.alignmentDue now)
    (hday : ∀ i ≤ k, (c.punctual lengths now i).time.day = now.day) :
    ∃ s, (c.punctual lengths now k).step = some s ∧ s.duration = .ofMillis s.duration.millis ∧
      locate lengths ((c.punctual lengths now k).time.millisOfDay % lengths.sum) =
        some ⟨s.index, s.duration.millis⟩ := by
  obtain ⟨a, ha⟩ := exists_lastAligned (punctual_aligned hne hpos hdue) k
  have hsame : ∀ i, a ≤ i → i ≤ k →
      (c.punctual lengths now i).time.day = (c.punctual lengths now a).time.day := by
    intro i _ hik
    rw [hday i hik, hday a ha.le]
  unfold punctual at ha hsame ⊢
  obtain ⟨s, r, hs, hloc, hd⟩ := walk_locate hne hpos ht ha hsame
  have hplain := walk_plain c (lengths.map .ofMillis) (fun _ => 0) ht a
  have htime := walk_time hne hpos c (fun _ => 0) ht.proper ha.le
  have hend := hsame k ha.le (Nat.le_refl k)
  simp only [Finset.sum_const_zero, Nat.add_zero] at htime
  rw [htime] at hend
  have hwhole := walk_duration hne hpos c now (fun _ => 0) k
  rw [Leg.duration_of_step hs] at hwhole
  refine ⟨s, hs, hwhole, ?_⟩
  obtain ⟨l, hl, hle⟩ := locate_remaining_le hloc
  have hcap := hword l hl
  have hr : s.duration.millis = r := by
    rw [hd]
    split
    · exact Nat.min_eq_left (Nat.le_trans hle hcap)
    · rfl
  rw [htime, Moment.millisOfDay_shift hplain hend, hloc, hr]

end Cursor

end Schedule

namespace Config

/-- Admitted modules have different names. -/
theorem nodup_of_checkModules {modules : List ModuleSetting} {seen : List String}
    (h : checkModules seen modules = .ok ()) :
    (modules.map ModuleSetting.id).Nodup ∧ ∀ m ∈ modules, m.id ∉ seen := by
  induction modules generalizing seen with
  | nil => simp
  | cons m rest ih =>
    unfold checkModules at h
    split at h
    · cases h
    split at h
    · cases h
    rename_i hseen
    obtain ⟨hnodup, hfresh⟩ := ih h
    simp only [List.contains_iff_mem] at hseen
    constructor
    · rw [List.map_cons, List.nodup_cons]
      refine ⟨?_, hnodup⟩
      intro hm
      obtain ⟨k, hk, hid⟩ := List.mem_map.mp hm
      apply hfresh k hk
      rw [hid]
      exact List.mem_cons_self
    · intro k hk
      rcases List.mem_cons.mp hk with rfl | hk
      · exact hseen
      · intro hmem
        exact hfresh k hk (List.mem_cons_of_mem _ hmem)

theorem checkModules_of_validate {s : Settings} (h : s.validate = .ok ()) :
    checkModules [] s.schedule.modules = .ok () := by
  unfold Settings.validate at h
  cases hc : checkModules [] s.schedule.modules with
  | ok => rfl
  | error e =>
    rw [hc] at h
    by_cases ha : s.schedule.alignment = 0
    · simp [ha, bind, Except.bind, throw, throwThe, MonadExceptOf.throw] at h
    · simp [ha, bind, Except.bind] at h

end Config

namespace Command

/-- The roster that a scheduler makes of the configured modules. -/
def rosterOf (modules : List ModuleSetting) : Roster :=
  modules.foldl (fun r m => (r.register m.id (.ofMillis m.phase)).2) {}

theorem clamp_ofMillis {ms : Nat} (h : 1 ≤ ms) : Roster.clamp (.ofMillis ms) = .ofMillis ms := by
  unfold Roster.clamp
  rw [if_neg]
  simp only [Roster.shortestPhase, Span.ofMillis, Span.perMilli]
  omega

/-- Modules with different names and no empty phase are registered as they are. -/
theorem rosterOf_entries {modules : List ModuleSetting}
    (hid : (modules.map ModuleSetting.id).Nodup) (hpos : ∀ m ∈ modules, 1 ≤ m.phase) :
    (rosterOf modules).entries = modules.map fun m => ⟨m.id, .ofMillis m.phase⟩ := by
  have key : ∀ (modules : List ModuleSetting) (r : Roster),
      (modules.map ModuleSetting.id).Nodup → (∀ m ∈ modules, 1 ≤ m.phase) →
      (∀ m ∈ modules, r.has m.id = false) →
      (modules.foldl (fun r m => (r.register m.id (.ofMillis m.phase)).2) r).entries =
        r.entries ++ modules.map fun m => ⟨m.id, .ofMillis m.phase⟩ := by
    intro modules
    induction modules with
    | nil => simp
    | cons m rest ih =>
      intro r hid hpos hfresh
      rw [List.map_cons, List.nodup_cons] at hid
      have hreg : (r.register m.id (.ofMillis m.phase)).2 =
          ⟨r.entries ++ [⟨m.id, .ofMillis m.phase⟩]⟩ := by
        unfold Roster.register
        rw [hfresh m List.mem_cons_self, clamp_ofMillis (hpos m List.mem_cons_self)]
        rfl
      rw [List.foldl_cons, hreg, ih _ hid.2, List.map_cons, List.append_assoc]
      · rfl
      · intro k hk
        exact hpos k (List.mem_cons_of_mem m hk)
      · intro k hk
        have hne : m.id ≠ k.id := by
          intro heq
          apply hid.1
          rw [heq]
          exact List.mem_map_of_mem hk
        have hold := hfresh k (List.mem_cons_of_mem m hk)
        unfold Roster.has at hold ⊢
        rw [List.any_append, hold]
        simp [hne]
  have h := key modules {} hid hpos (by simp [Roster.has])
  unfold rosterOf
  simpa using h

def lengthsOf (modules : List ModuleSetting) : List Nat := modules.map ModuleSetting.phase

theorem forall_lengthsOf {modules : List ModuleSetting} {p : Nat → Prop} :
    (∀ l ∈ lengthsOf modules, p l) ↔ ∀ m ∈ modules, p m.phase :=
  List.forall_mem_map

theorem rosterOf_phases {modules : List ModuleSetting}
    (hid : (modules.map ModuleSetting.id).Nodup) (hpos : ∀ m ∈ modules, 1 ≤ m.phase) :
    (rosterOf modules).phases = (lengthsOf modules).map .ofMillis := by
  unfold Roster.phases lengthsOf
  rw [rosterOf_entries hid hpos, List.map_map, List.map_map]
  rfl

/-- The phases from a module on, as far as times go. -/
def listing (modules : List ModuleSetting) : (count time index duration : Nat) → List Upcoming
  | 0, _, _, _ => []
  | count + 1, time, index, duration =>
    let next := (index + 1) % modules.length
    ⟨time, (modules[index]?.map ModuleSetting.id).getD "", duration⟩ ::
      listing modules count (time + duration) next ((modules[next]?.map ModuleSetting.phase).getD 0)

theorem listing_length (modules : List ModuleSetting) (count time index duration : Nat) :
    (listing modules count time index duration).length = count := by
  induction count generalizing time index duration with
  | zero => rfl
  | succ count ih => rw [listing, List.length_cons, ih]

theorem fits_of_le {a b : Nat} (h : a ≤ b) (hb : (Span.ofMillis b).fits) :
    (Span.ofMillis a).fits := by
  unfold Span.fits Span.seconds Span.ofMillis at hb ⊢
  rw [decide_eq_true_eq] at hb ⊢
  apply Nat.lt_of_le_of_lt _ hb
  apply Nat.div_le_div_right
  exact Nat.mul_le_mul_right _ h

/-- The listing fails exactly if its end is too far away. -/
theorem phasesFrom_eq (modules : List ModuleSetting) (count : Nat) {time : Nat}
    (ht : (Span.ofMillis time).fits) (index duration : Nat) :
    phasesFrom modules count time index duration =
      if (Span.ofMillis (time +
          ((listing modules count time index duration).map Upcoming.duration).sum)).fits then
        .ok (listing modules count time index duration)
      else .error .spanTooLong := by
  induction count generalizing time index duration with
  | zero =>
    rw [listing, List.map_nil, List.sum_nil, Nat.add_zero, if_pos ht]
    rfl
  | succ count ih =>
    unfold phasesFrom listing
    dsimp only
    rw [List.map_cons, List.sum_cons, ← Nat.add_assoc]
    by_cases hl : (Span.ofMillis (time + duration)).fits
    · rw [if_pos hl, ih hl]
      split
      · rfl
      · rfl
    · rw [if_neg hl, if_neg]
      intro hend
      exact hl (fits_of_le (Nat.le_add_right _ _) hend)

/-- The entries of a listing follow one another without gaps. -/
theorem listing_succ {modules : List ModuleSetting} {count time index duration k : Nat}
    {e : Upcoming} (h : (listing modules count time index duration)[k + 1]? = some e) :
    ∃ d, (listing modules count time index duration)[k]? = some d ∧ e.time = d.time + d.duration := by
  induction k generalizing count time index duration with
  | zero =>
    cases count with
    | zero => simp [listing] at h
    | succ count =>
      refine ⟨_, rfl, ?_⟩
      cases count with
      | zero => simp [listing] at h
      | succ count =>
        simp only [listing, List.getElem?_cons_succ, List.getElem?_cons_zero, Option.some.injEq] at h
        rw [← h]
  | succ k ih =>
    cases count with
    | zero => simp [listing] at h
    | succ count =>
      rw [listing, List.getElem?_cons_succ] at h
      obtain ⟨d, hd, he⟩ := ih h
      refine ⟨d, ?_, he⟩
      rw [listing, List.getElem?_cons_succ]
      exact hd

/-- Every entry of a listing is the natural phase of its time, if the first one is. -/
theorem listing_locate {modules : List ModuleSetting} {count time index duration k : Nat}
    {e : Upcoming} (hpos : ∀ m ∈ modules, 1 ≤ m.phase)
    (hfirst : locate (lengthsOf modules) (time % (lengthsOf modules).sum) = some ⟨index, duration⟩)
    (h : (listing modules count time index duration)[k]? = some e) :
    time ≤ e.time ∧ ∃ i m, modules[i]? = some m ∧ e.module = m.id ∧
      locate (lengthsOf modules) (e.time % (lengthsOf modules).sum) = some ⟨i, e.duration⟩ := by
  induction k generalizing count time index duration with
  | zero =>
    cases count with
    | zero => simp [listing] at h
    | succ count =>
      simp only [listing, List.getElem?_cons_zero, Option.some.injEq] at h
      subst h
      have hi := (locate_eq_some_iff.mp hfirst).1
      rw [lengthsOf, List.length_map] at hi
      refine ⟨Nat.le_refl _, index, modules[index], List.getElem?_eq_getElem hi, ?_, hfirst⟩
      simp [hi]
  | succ k ih =>
    cases count with
    | zero => simp [listing] at h
    | succ count =>
      rw [listing, List.getElem?_cons_succ] at h
      obtain ⟨hi, hnext⟩ := locate_next (forall_lengthsOf.mpr hpos) hfirst
      have hsecond : locate (lengthsOf modules) ((time + duration) % (lengthsOf modules).sum) =
          some ⟨(index + 1) % modules.length,
            (modules[(index + 1) % modules.length]?.map ModuleSetting.phase).getD 0⟩ := by
        rw [hnext]
        simp only [lengthsOf, List.length_map] at hi ⊢
        simp [hi]
      obtain ⟨hle, hrest⟩ := ih hsecond h
      exact ⟨by omega, hrest⟩

/-- What is listed from a natural phase on. -/
theorem upcoming_eq {modules : List ModuleSetting} (count : Nat) {time i r : Nat}
    (hsum : (lengthsOf modules).sum ≠ 0)
    (hphases : ∀ m ∈ modules, 1 ≤ m.phase ∧ m.phase ≤ longestRemaining) (htime : time ≤ 86400000)
    (hp : locate (lengthsOf modules) (time % (lengthsOf modules).sum) = some ⟨i, r⟩) :
    upcoming modules time count =
      if (Span.ofMillis (time + ((listing modules count time i r).map Upcoming.duration).sum)).fits
      then .ok (.ok (listing modules count time i r))
      else .error .spanTooLong := by
  have hfit : (Span.ofMillis time).fits := fits_of_le htime (by decide)
  have hnat := naturalOfMillis_of_words hsum (forall_lengthsOf.mpr fun m hm => (hphases m hm).2) time
  rw [hp] at hnat
  unfold lengthsOf at hnat
  unfold upcoming
  simp only [hnat]
  rw [phasesFrom_eq _ _ hfit]
  split
  · rfl
  · rfl

section Walk

variable {modules : List ModuleSetting} {now : Moment} {c : Cursor} {count index duration k : Nat}
  {e : Upcoming}

/-- At the time of an entry the step is the natural phase, which is the entry's too. -/
theorem step_of_entry (hne : modules ≠ [])
    (hphases : ∀ m ∈ modules, 1 ≤ m.phase ∧ m.phase ≤ longestRemaining) (hnow : now.Plain)
    (hdue : c.alignmentDue now)
    (hfirst : locate (lengthsOf modules) (now.millisOfDay % (lengthsOf modules).sum) =
      some ⟨index, duration⟩)
    (he : (listing modules count now.millisOfDay index duration)[k]? = some e)
    (hlt : e.time < 86400000)
    (hdays : ∀ i ≤ k, (c.punctual (lengthsOf modules) now i).time.day = now.day)
    (htime : (c.punctual (lengthsOf modules) now k).time =
      now.shift (Span.ofMillis (e.time - now.millisOfDay)).nanos) :
    ∃ step m, (c.punctual (lengthsOf modules) now k).step = some step ∧
      step.duration = .ofMillis e.duration ∧ modules[step.index]? = some m ∧ e.module = m.id := by
  have hpos : ∀ m ∈ modules, 1 ≤ m.phase := fun m hm => (hphases m hm).1
  have hlengths : lengthsOf modules ≠ [] := by
    unfold lengthsOf
    simpa using hne
  obtain ⟨hle, i, m, hm, hid, hloc⟩ := listing_locate hpos hfirst he
  obtain ⟨s, hs, hwhole, hnat⟩ := Cursor.punctual_natural hlengths (forall_lengthsOf.mpr hpos)
    (forall_lengthsOf.mpr fun m hm => (hphases m hm).2) hnow hdue hdays
  have hthere : (now.shift (Span.ofMillis (e.time - now.millisOfDay)).nanos).day = now.day :=
    Moment.day_shift_of_lt hnow (by omega)
  rw [htime, Moment.millisOfDay_shift hnow hthere, Nat.add_sub_cancel' hle, hloc] at hnat
  obtain ⟨rfl, hdur⟩ := NaturalPhase.mk.inj (Option.some.inj hnat)
  rw [← hdur] at hwhole
  exact ⟨s, m, hs, hwhole, hm, hid⟩

/-- While the entries are of one day, the punctual walk is at the times listed. -/
theorem time_of_entry (hne : modules ≠ [])
    (hphases : ∀ m ∈ modules, 1 ≤ m.phase ∧ m.phase ≤ longestRemaining) (hnow : now.Plain)
    (hdue : c.alignmentDue now)
    (hfirst : locate (lengthsOf modules) (now.millisOfDay % (lengthsOf modules).sum) =
      some ⟨index, duration⟩)
    (he : (listing modules count now.millisOfDay index duration)[k]? = some e)
    (hlt : e.time < 86400000) :
    (∀ i ≤ k, (c.punctual (lengthsOf modules) now i).time.day = now.day) ∧
      (c.punctual (lengthsOf modules) now k).time =
        now.shift (Span.ofMillis (e.time - now.millisOfDay)).nanos := by
  have hpos : ∀ m ∈ modules, 1 ≤ m.phase := fun m hm => (hphases m hm).1
  induction k generalizing e with
  | zero =>
    have htime : e.time = now.millisOfDay := by
      cases count with
      | zero => cases he
      | succ count =>
        cases he
        rfl
    constructor
    · intro i hi
      rw [Nat.le_zero.mp hi]
      rfl
    · rw [htime, Nat.sub_self]
      exact (Moment.shift_zero hnow.proper).symm
  | succ k ih =>
    obtain ⟨d, hd, hnext⟩ := listing_succ he
    obtain ⟨hdays, htime⟩ := ih hd (by omega)
    obtain ⟨s, m, hs, hdur, -⟩ := step_of_entry hne hphases hnow hdue hfirst hd (by omega) hdays htime
    have hstart := (listing_locate hpos hfirst hd).1
    have hadd : ((Span.ofMillis (d.time - now.millisOfDay)).nanos : Int) +
        (Span.ofMillis d.duration).nanos = (Span.ofMillis (e.time - now.millisOfDay)).nanos := by
      simp only [Span.ofMillis, Span.perMilli]
      omega
    have hreach : (c.punctual (lengthsOf modules) now (k + 1)).time =
        now.shift (Span.ofMillis (e.time - now.millisOfDay)).nanos := by
      rw [Cursor.punctual_succ_time, htime, Leg.duration_of_step hs, hdur,
        Moment.shift_shift hnow.proper (by omega) (by omega), hadd]
    refine ⟨?_, hreach⟩
    intro i hi
    rcases Nat.lt_or_eq_of_le hi with hi | rfl
    · exact hdays i (Nat.le_of_lt_succ hi)
    · rw [hreach]
      apply Moment.day_shift_of_lt hnow
      omega

end Walk

/-- The listing foretells the scheduler. For admitted settings whose phases are not empty and fit a
word, `forecast` lists phases, unless their end is too far away for a span; and up to midnight they
are the steps of a cursor over the roster of the modules, if the first step aligns at the time of
day that the listing begins with and every other one is made as soon as the one before is over. -/
theorem forecast_walks {s : Settings} (hs : s.validate = .ok ()) (hne : s.schedule.modules ≠ [])
    (hphases : ∀ m ∈ s.schedule.modules, 1 ≤ m.phase ∧ m.phase ≤ longestRemaining)
    {start : String} {now : Moment} (hstart : timeOfDay? start = some now.millisOfDay)
    (hnow : now.Plain) {c : Cursor} (hdue : c.alignmentDue now) (count : Nat) :
    ∃ entries : List Upcoming, entries.length = count ∧
      upcoming s.schedule.modules now.millisOfDay count =
        (if (Span.ofMillis (now.millisOfDay + (entries.map Upcoming.duration).sum)).fits then
          .ok (.ok entries)
        else .error .spanTooLong) ∧
      forecast s.schedule start count =
        (if (Span.ofMillis (now.millisOfDay + (entries.map Upcoming.duration).sum)).fits then
          .ok (.ok (entries.map Upcoming.line))
        else .error .spanTooLong) ∧
      ∀ k e, entries[k]? = some e → e.time < 86400000 →
        ∃ step entry,
          (c.walk (rosterOf s.schedule.modules).phases now (fun _ => 0) k).time =
            now.shift (Span.ofMillis (e.time - now.millisOfDay)).nanos ∧
          (c.walk (rosterOf s.schedule.modules).phases now (fun _ => 0) k).step = some step ∧
          (rosterOf s.schedule.modules).get? step.index = some entry ∧
          e.module = entry.id ∧ .ofMillis e.duration = step.duration := by
  have hpos : ∀ m ∈ s.schedule.modules, 1 ≤ m.phase := fun m hm => (hphases m hm).1
  have hid := (Config.nodup_of_checkModules (Config.checkModules_of_validate hs)).1
  have hsum : (lengthsOf s.schedule.modules).sum ≠ 0 := by
    obtain ⟨m, hm⟩ := List.exists_mem_of_ne_nil _ hne
    exact sum_ne_zero (List.mem_map_of_mem hm) (hpos m hm)
  obtain ⟨⟨i, r⟩, hp⟩ :=
    locate_isSome (Nat.mod_lt now.millisOfDay (Nat.pos_of_ne_zero hsum))
  have hup := upcoming_eq count hsum hphases (Nat.le_of_lt now.millisOfDay_lt) hp
  refine ⟨_, listing_length .., hup, ?_, ?_⟩
  · unfold forecast
    rw [hstart]
    dsimp only
    rw [hup]
    split
    · rfl
    · rfl
  · intro k e he hlt
    obtain ⟨hdays, htime⟩ := time_of_entry hne hphases hnow hdue hp he hlt
    obtain ⟨step, m, hstep, hdur, hm, hname⟩ :=
      step_of_entry hne hphases hnow hdue hp he hlt hdays htime
    rw [rosterOf_phases hid hpos]
    refine ⟨step, ⟨m.id, .ofMillis m.phase⟩, htime, hstep, ?_, hname, hdur.symm⟩
    rw [Roster.get?, rosterOf_entries hid hpos, List.getElem?_map, hm]
    rfl

/-- From a quarter of a second before midnight on; the third phase is of the next day. -/
theorem forecast_walks_before_midnight :
    let s : Settings := { schedule := { modules := [⟨"gm", 400⟩, ⟨"sc", 200⟩] } }
    let now : Moment := ⟨1717286399, 750000000⟩
    let c : Cursor := ⟨0, 0, ⟨1717286379, 0⟩, s.alignmentSpan⟩
    let listed : List Upcoming := [⟨86399750, "gm", 50⟩, ⟨86399800, "sc", 200⟩, ⟨86400000, "gm", 400⟩]
    forecast s.schedule "23:59:59.750" 3 = .ok (.ok (listed.map Upcoming.line)) ∧
      ∃ step, (c.walk (rosterOf s.schedule.modules).phases now (fun _ => 0) 1).step = some step ∧
        step.duration = .ofMillis 200 := by
  intro s now c listed
  have hup : upcoming s.schedule.modules now.millisOfDay 3 = .ok (.ok listed) := by decide +kernel
  have hstart : timeOfDay? "23:59:59.750" = some now.millisOfDay := by decide +kernel
  have hdue : c.alignmentDue now := by decide
  obtain ⟨entries, -, hentries, hlines, hsteps⟩ :=
    forecast_walks (s := s) (by decide +kernel) (by decide) (by decide) hstart (by decide) hdue 3
  rw [hup] at hentries
  split at hentries
  · rename_i hfit
    cases hentries
    rw [if_pos hfit] at hlines
    obtain ⟨step, entry, -, hstep, -, -, hdur⟩ := hsteps 1 ⟨86399800, "sc", 200⟩ rfl (by decide)
    exact ⟨hlines, step, hstep, hdur.symm⟩
  · cases hentries

/-- The listing knows nothing of the millisecond that the roster gives an empty phase. -/
theorem forecast_passes_empty_phase :
    let s : Settings := { schedule := { modules := [⟨"gm", 0⟩, ⟨"sc", 100⟩] } }
    let c : Cursor := ⟨0, 0, ⟨1717199980, 0⟩, s.alignmentSpan⟩
    s.validate = .ok () ∧ timeOfDay? "00:00:00" = some 0 ∧
      forecast s.schedule "00:00:00" 1 = .ok (.ok ["00:00:00.000 sc      100ms"]) ∧
      c.alignmentDue ⟨1717200000, 0⟩ ∧
      (c.walk (rosterOf s.schedule.modules).phases ⟨1717200000, 0⟩ (fun _ => 0) 0).step =
        some ⟨0, .ofMillis 1, true⟩ ∧
      (rosterOf s.schedule.modules).get? 0 = some ⟨"gm", .ofMillis 1⟩ := by
  decide +kernel

end Command

end PhasedGrid
