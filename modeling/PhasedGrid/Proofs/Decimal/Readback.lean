import PhasedGrid.Decimal.Reading
import PhasedGrid.Proofs.Texts

/-!
Numbers that were written can be read: a sequence number comes back as itself, and the text of any
reading, not-a-number and the infinities included, is the text of some reading. Neither has a blank
in it.
-/

namespace PhasedGrid.Decimal

set_option autoImplicit false

theorem toNat_of_isDigit {c : Char} (h : c.isDigit) : 48 ≤ c.toNat ∧ c.toNat ≤ 57 := by
  rw [Char.isDigit, Bool.and_eq_true, decide_eq_true_eq, decide_eq_true_eq] at h
  exact h

theorem isBlank_of_isDigit {c : Char} (h : c.isDigit) : Text.isBlank c = false :=
  Text.isBlank_of_graphic (by have := toNat_of_isDigit h; omega) (by have := toNat_of_isDigit h; omega)

theorem readDigits?_eq_ofDigitChars {cs : List Char} (h : ∀ c ∈ cs, c.isDigit) (acc : Nat) :
    readDigits? acc cs = some (Nat.ofDigitChars 10 cs acc) := by
  induction cs generalizing acc with
  | nil => rfl
  | cons c rest ih =>
    have hc : digit? c = some (c.toNat - '0'.toNat) := by simp [digit?, h c List.mem_cons_self]
    rw [readDigits?, hc, Option.bind_some, ih (fun d hd => h d (List.mem_cons_of_mem c hd)),
      Nat.ofDigitChars_cons]

theorem isDigit_of_mem_toDigits {n : Nat} {c : Char} (h : c ∈ Nat.toDigits 10 n) : c.isDigit :=
  Nat.isDigit_of_mem_toDigits (by omega) (by omega) h

theorem natural?_toDigits (n : Nat) : natural? (Nat.toDigits 10 n) = some n := by
  have hr := readDigits?_eq_ofDigitChars (fun _ => isDigit_of_mem_toDigits (n := n)) 0
  rw [Nat.ofDigitChars_ten_toDigits] at hr
  cases hd : Nat.toDigits 10 n with
  | nil => exact absurd hd Nat.toDigits_ne_nil
  | cons c rest => rw [hd] at hr; exact hr

theorem unsigned?_natText_ite (n limit : Nat) :
    unsigned? limit (natText n) = if n ≤ limit then some n else none := by
  unfold unsigned? natText
  rw [String.toList_ofList]
  split
  · rename_i rest heq
    have hd : ('+' : Char).isDigit :=
      isDigit_of_mem_toDigits (n := n) (by rw [heq]; exact List.mem_cons_self)
    exact absurd hd (by decide)
  · simp only [natural?_toDigits, Option.filter_some, decide_eq_true_eq]

/-- A number within its bounds is read back from its digits. -/
theorem unsigned?_natText {n limit : Nat} (h : n ≤ limit) :
    unsigned? limit (natText n) = some n := by
  rw [unsigned?_natText_ite, if_pos h]

theorem trim_natText (n : Nat) : Text.trim (natText n) = natText n :=
  Text.trim_ofList fun _ hc => isBlank_of_isDigit (isDigit_of_mem_toDigits hc)

theorem isDigit_of_mem_replicate_zero {n : Nat} {c : Char} (h : c ∈ List.replicate n '0') :
    c.isDigit := by
  rw [List.eq_of_mem_replicate h]
  decide

/-- Dropping the zeros at the end. -/
theorem exists_zeros (cs : List Char) :
    ∃ n, cs = (cs.reverse.dropWhile (· = '0')).reverse ++ List.replicate n '0' := by
  have hall : ∀ c ∈ cs.reverse.takeWhile (· = '0'), c = '0' := by
    intro c hc
    simpa using (List.all_eq_true.mp List.all_takeWhile) c hc
  have hzeros := List.eq_replicate_iff.mpr ⟨rfl, hall⟩
  have hsplit := List.takeWhile_append_dropWhile (p := (· = '0')) (l := cs.reverse)
  rw [hzeros] at hsplit
  have hreverse := congrArg List.reverse hsplit
  rw [List.reverse_append, List.reverse_reverse, List.reverse_replicate] at hreverse
  exact ⟨_, hreverse.symm⟩

/-- The digits of a decimal in front of and behind the point. Zeros may have been added in front, or
taken away at the end. -/
structure Written (d : Scaled) (front back : List Char) : Prop where
  front_ne_nil : front ≠ []
  isDigit : ∀ c ∈ front ++ back, c.isDigit
  text : (d.positional "").toList = front ++ if back = [] then [] else '.' :: back
  short : back.length ≤ (-d.exponent).toNat
  value : Nat.ofDigitChars 10 (front ++ back) 0 * Nat.pow 10 ((-d.exponent).toNat - back.length) =
    d.digits * Nat.pow 10 d.exponent.toNat

theorem written_whole {d : Scaled} (he : 0 ≤ d.exponent) : ∃ front, Written d front [] := by
  have hplaces : (-d.exponent).toNat = 0 := by omega
  by_cases hzero : d.digits = 0
  · refine ⟨['0'], by simp, by simp, ?_, by simp, ?_⟩
    · simp [Scaled.positional, he, hzero]
    · simp [hzero, Nat.ofDigitChars_cons]
  · refine ⟨Nat.toDigits 10 d.digits ++ List.replicate d.exponent.toNat '0', ?_, ?_, ?_, ?_, ?_⟩
    · simp [Nat.toDigits_ne_nil]
    · intro c hc
      rw [List.append_nil] at hc
      rcases List.mem_append.mp hc with h | h
      · exact isDigit_of_mem_toDigits h
      · exact isDigit_of_mem_replicate_zero h
    · simp [Scaled.positional, he, hzero]
    · exact Nat.zero_le _
    · rw [List.append_nil, Nat.ofDigitChars_append, Nat.ofDigitChars_replicate_zero,
        Nat.ofDigitChars_ten_toDigits, hplaces, Nat.zero_sub]
      exact (Nat.mul_one _).trans (Nat.mul_comm _ _)

/-- Leading zeros leave at least one digit in front of the point. -/
theorem written_point {d : Scaled} (he : ¬ 0 ≤ d.exponent) : ∃ front back, Written d front back := by
  generalize hp : (-d.exponent).toNat = places
  have hzero : d.exponent.toNat = 0 := by omega
  generalize hl : List.replicate (places + 1 - (Nat.toDigits 10 d.digits).length) '0' ++
    Nat.toDigits 10 d.digits = ds
  have hlen : places + 1 ≤ ds.length := by
    rw [← hl, List.length_append, List.length_replicate]
    omega
  have hds : ∀ c ∈ ds, c.isDigit := by
    intro c hc
    rw [← hl] at hc
    rcases List.mem_append.mp hc with h | h
    · exact isDigit_of_mem_replicate_zero h
    · exact isDigit_of_mem_toDigits h
  have hvalue : Nat.ofDigitChars 10 ds 0 = d.digits := by
    rw [← hl, Nat.ofDigitChars_append, Nat.ofDigitChars_replicate_zero, Nat.mul_zero,
      Nat.ofDigitChars_ten_toDigits]
  generalize hf : ds.take (ds.length - places) = front
  generalize hb : ((ds.drop (ds.length - places)).reverse.dropWhile (· = '0')).reverse = back
  obtain ⟨n, hn⟩ := exists_zeros (ds.drop (ds.length - places))
  rw [hb] at hn
  have hwhole : ds = front ++ back ++ List.replicate n '0' := by
    rw [List.append_assoc, ← hn, ← hf, List.take_append_drop]
  have hfront : front.length = ds.length - places := by
    rw [← hf, List.length_take]
    omega
  have hlength := congrArg List.length hwhole
  rw [List.length_append, List.length_append, List.length_replicate] at hlength
  refine ⟨front, back, ?_, ?_, ?_, ?_, ?_⟩
  · intro h
    rw [h, List.length_nil] at hfront
    omega
  · intro c hc
    apply hds
    rw [hwhole]
    exact List.mem_append_left _ hc
  · simp only [Scaled.positional, if_neg he, hp, hl, hf, hb]
    cases back <;> simp
  · omega
  · rw [hwhole, Nat.ofDigitChars_append, Nat.ofDigitChars_replicate_zero] at hvalue
    have hn : places - back.length = n := by omega
    rw [hp, hzero, hn, ← hvalue, Nat.mul_comm]
    exact (Nat.mul_one _).symm

theorem exists_written (d : Scaled) : ∃ front back, Written d front back := by
  by_cases he : 0 ≤ d.exponent
  · obtain ⟨front, h⟩ := written_whole he
    exact ⟨front, [], h⟩
  · exact written_point he

/-- Digits with at most one point behind the first of them. -/
def Positional (cs : List Char) : Prop :=
  ∃ front : List Char, front ≠ [] ∧ (∀ c ∈ front, c.isDigit) ∧
    (cs = front ∨ ∃ back : List Char, (∀ c ∈ back, c.isDigit) ∧ cs = front ++ '.' :: back)

theorem positional_positional (d : Scaled) : Positional (d.positional "").toList := by
  obtain ⟨front, back, h⟩ := exists_written d
  refine ⟨front, h.front_ne_nil, fun c hc => h.isDigit c (List.mem_append_left back hc), ?_⟩
  by_cases hback : back = []
  · left
    rw [h.text, if_pos hback, List.append_nil]
  · right
    refine ⟨back, fun c hc => h.isDigit c (List.mem_append_right front hc), ?_⟩
    rw [h.text, if_neg hback]

theorem takeWhile_isDigit {front : List Char} (h : ∀ c ∈ front, c.isDigit) (rest : List Char)
    (hr : ∀ c ∈ rest.head?, ¬ c.isDigit) :
    (front ++ rest).takeWhile Char.isDigit = front ∧ (front ++ rest).dropWhile Char.isDigit = rest := by
  rw [List.takeWhile_append_of_pos h, List.dropWhile_append_of_pos h]
  cases rest with
  | nil => simp
  | cons c rest =>
    have hc := hr c rfl
    rw [List.takeWhile_cons_of_neg hc, List.dropWhile_cons_of_neg hc]
    simp

section Fractions

variable {front back : List Char}

theorem fraction?_whole (hne : front ≠ []) (hf : ∀ c ∈ front, c.isDigit) :
    fraction? front = some ⟨front, [], 0⟩ := by
  obtain ⟨ht, hr⟩ := takeWhile_isDigit hf [] (by simp)
  rw [List.append_nil] at ht hr
  simp [fraction?, ht, hr, hne]

theorem fraction?_point (hne : front ≠ []) (hf : ∀ c ∈ front, c.isDigit)
    (hb : ∀ c ∈ back, c.isDigit) : fraction? (front ++ '.' :: back) = some ⟨front, back, 0⟩ := by
  have hpoint : ∀ c ∈ ('.' :: back).head?, ¬ c.isDigit := by
    intro c hc
    cases hc
    decide
  obtain ⟨ht, hr⟩ := takeWhile_isDigit hf ('.' :: back) hpoint
  obtain ⟨hbt, hbr⟩ := takeWhile_isDigit hb [] (by simp)
  rw [List.append_nil] at hbt hbr
  simp [fraction?, ht, hr, hbt, hbr, hne]

theorem fraction?_written {d : Scaled} (h : Written d front back) :
    fraction? (d.positional "").toList = some ⟨front, back, 0⟩ := by
  have hf : ∀ c ∈ front, c.isDigit := fun c hc => h.isDigit c (List.mem_append_left back hc)
  have hb : ∀ c ∈ back, c.isDigit := fun c hc => h.isDigit c (List.mem_append_right front hc)
  rw [h.text]
  by_cases hback : back = []
  · rw [if_pos hback, List.append_nil, hback]
    exact fraction?_whole h.front_ne_nil hf
  · rw [if_neg hback]
    exact fraction?_point h.front_ne_nil hf hb

theorem fraction?_isSome {cs : List Char} (h : Positional cs) : (fraction? cs).isSome := by
  obtain ⟨front, hne, hf, rfl | ⟨back, hb, rfl⟩⟩ := h
  · rw [fraction?_whole hne hf]
    rfl
  · rw [fraction?_point hne hf hb]
    rfl

end Fractions

theorem Positional.head_isDigit {cs : List Char} (h : Positional cs) :
    ∃ c rest, cs = c :: rest ∧ c.isDigit := by
  obtain ⟨front, hne, hf, hcs⟩ := h
  cases front with
  | nil => exact absurd rfl hne
  | cons c front =>
    have hc := hf c List.mem_cons_self
    rcases hcs with rfl | ⟨back, _, rfl⟩
    · exact ⟨c, front, rfl, hc⟩
    · exact ⟨c, front ++ '.' :: back, rfl, hc⟩

theorem toLower_of_isDigit {c : Char} (h : c.isDigit) : c.toLower = c := by
  have hc := toNat_of_isDigit h
  unfold Char.toLower
  rw [dif_neg]
  rintro ⟨hlow, -⟩
  have : 65 ≤ c.toNat := hlow
  omega

/-- No name of a number starts with a digit. -/
theorem unsignedReading?_positional (negative : Bool) {cs : List Char} (h : Positional cs) :
    unsignedReading? negative cs = (fraction? cs).map (Fraction.nearest negative) := by
  obtain ⟨c, rest, rfl, hc⟩ := h.head_isDigit
  have hname : ∀ (name : String) (d : Char), name.toList.head? = some d → ¬ d.isDigit →
      String.ofList ((c :: rest).map Char.toLower) ≠ name := by
    rintro name d hfirst hd rfl
    rw [String.toList_ofList, List.map_cons, List.head?_cons, toLower_of_isDigit hc] at hfirst
    cases hfirst
    exact hd hc
  simp only [unsignedReading?]
  rw [if_neg, if_neg (hname "nan" 'n' rfl (by decide))]
  rintro (heq | heq)
  · exact hname "inf" 'i' rfl (by decide) heq
  · exact hname "infinity" 'i' rfl (by decide) heq

theorem binary64?_positional {cs : List Char} (h : Positional cs) :
    binary64? cs = (fraction? cs).map (Fraction.nearest false) := by
  rw [← unsignedReading?_positional false h]
  obtain ⟨c, rest, rfl, hc⟩ := h.head_isDigit
  unfold binary64?
  split
  · rename_i heq
    cases heq
    exact absurd hc (by decide)
  · rename_i heq
    cases heq
    exact absurd hc (by decide)
  · rfl

theorem render_shape (b : Binary64) :
    (b.render plain).toList ∈ [['N', 'a', 'N'], ['i', 'n', 'f'], ['-', 'i', 'n', 'f']] ∨
      ∃ cs, Positional cs ∧
        ((b.render plain).toList = cs ∨ (b.render plain).toList = '-' :: cs) := by
  cases b with
  | nan => exact Or.inl (by decide)
  | infinite negative => cases negative <;> exact Or.inl (by decide)
  | finite negative m q =>
    right
    simp only [Binary64.render]
    generalize hs : (if m = 0 then Scaled.positional plain.whole ⟨0, 0⟩
      else (shortest m q).positional plain.whole) = size
    have hp : Positional size.toList := by
      rw [← hs]
      split <;> exact positional_positional _
    cases negative with
    | false => exact ⟨size.toList, hp, Or.inl rfl⟩
    | true => exact ⟨size.toList, hp, Or.inr (by simp)⟩

/-- The text of a reading, sent and read again. -/
def retold (x : Float) : Float := (reading? (render plain x)).getD x

/-- Every reading has a text that can be read. -/
theorem reading?_render (x : Float) : reading? (render plain x) = some (retold x) := by
  have key : (binary64? (render plain x).toList).isSome := by
    unfold render
    rcases render_shape (Binary64.ofFloat x) with h | ⟨cs, hp, h | h⟩
    · simp only [List.mem_cons, List.not_mem_nil, or_false] at h
      rcases h with h | h | h <;> rw [h] <;> decide
    · rw [h, binary64?_positional hp, Option.isSome_map]
      exact fraction?_isSome hp
    · rw [h, binary64?, unsignedReading?_positional true hp, Option.isSome_map]
      exact fraction?_isSome hp
  obtain ⟨b, hb⟩ := Option.isSome_iff_exists.mp key
  simp [retold, reading?, hb]

theorem forall_mem_positional {P : Char → Prop} (hdigit : ∀ c : Char, c.isDigit → P c)
    (hpoint : P '.') {cs : List Char} (h : Positional cs) : ∀ c ∈ cs, P c := by
  obtain ⟨front, _, hf, rfl | ⟨back, hb, rfl⟩⟩ := h
  · intro c hc
    exact hdigit c (hf c hc)
  · intro c hc
    rcases List.mem_append.mp hc with hc | hc
    · exact hdigit c (hf c hc)
    rcases List.mem_cons.mp hc with rfl | hc
    · exact hpoint
    · exact hdigit c (hb c hc)

/-- A reading is written with digits, a sign, a point and the letters of three names. -/
theorem forall_mem_render {P : Char → Prop} (hdigit : ∀ c : Char, c.isDigit → P c)
    (hmark : ∀ c ∈ ['-', '.', 'N', 'a', 'i', 'n', 'f'], P c) (x : Float) :
    ∀ c ∈ (render plain x).toList, P c := by
  have hpositional : ∀ {cs : List Char}, Positional cs → ∀ c ∈ cs, P c :=
    forall_mem_positional hdigit (hmark '.' (by decide))
  unfold render
  rcases render_shape (Binary64.ofFloat x) with h | ⟨cs, hp, h | h⟩
  · intro c hc
    apply hmark c
    simp only [List.mem_cons, List.not_mem_nil, or_false] at h
    rcases h with h | h | h <;> rw [h] at hc <;> exact Text.forall_mem_of_all (by decide) c hc
  · rw [h]
    exact hpositional hp
  · rw [h]
    intro c hc
    rcases List.mem_cons.mp hc with rfl | hc
    · exact hmark '-' (by decide)
    · exact hpositional hp c hc

theorem render_ne_empty (x : Float) : render plain x ≠ "" := by
  unfold render
  intro hempty
  rcases render_shape (Binary64.ofFloat x) with h | ⟨cs, hp, h | h⟩
  · rw [hempty] at h
    exact absurd h (by decide)
  · obtain ⟨c, rest, rfl, -⟩ := hp.head_isDigit
    rw [hempty] at h
    cases h
  · rw [hempty] at h
    cases h

theorem trim_render (x : Float) : Text.trim (render plain x) = render plain x := by
  have hb := forall_mem_render (P := fun c => Text.isBlank c = false)
    (fun _ => isBlank_of_isDigit) (Text.forall_mem_of_all (by decide)) x
  have ht := Text.trim_ofList hb
  rwa [String.ofList_toList] at ht

section Foreign

variable {cs : List Char} {c : Char}

theorem isDigit_of_readDigits? {acc n : Nat} (h : readDigits? acc cs = some n) :
    ∀ c ∈ cs, c.isDigit := by
  induction cs generalizing acc with
  | nil => exact nofun
  | cons d rest ih =>
    rw [readDigits?] at h
    obtain ⟨digit, hdigit, hrest⟩ := Option.bind_eq_some_iff.mp h
    have hd : d.isDigit := (Option.ite_none_right_eq_some.mp hdigit).1
    exact List.forall_mem_cons.mpr ⟨hd, ih hrest⟩

theorem isDigit_of_natural? {n : Nat} (h : natural? cs = some n) : ∀ c ∈ cs, c.isDigit := by
  cases cs with
  | nil => exact nofun
  | cons d rest => exact isDigit_of_readDigits? h

/-- A character that no number is written with. -/
structure Foreign (c : Char) : Prop where
  digit : ¬ c.isDigit
  mark : c ∉ ['+', '-', '.', 'e', 'E']
  letter : c.toLower ∉ ['i', 'n', 'f', 't', 'y', 'a']

theorem Foreign.not_mem_of_natural? (hc : Foreign c) {n : Nat} (h : natural? cs = some n) :
    c ∉ cs := by
  intro hmem
  exact hc.digit (isDigit_of_natural? h c hmem)

theorem Foreign.not_mem_exponent (hc : Foreign c) {n : Int} (h : exponent? cs = some n) :
    c ∉ cs := by
  have hmark := hc.mark
  simp only [List.mem_cons, List.not_mem_nil, or_false, not_or] at hmark
  unfold exponent? at h
  split at h
  · obtain ⟨k, hk, -⟩ := Option.map_eq_some_iff.mp h
    obtain ⟨m, hm, -⟩ := Option.bind_eq_some_iff.mp hk
    exact List.not_mem_cons_of_ne_of_not_mem hmark.2.1 (hc.not_mem_of_natural? hm)
  · obtain ⟨k, hk, -⟩ := Option.map_eq_some_iff.mp h
    exact List.not_mem_cons_of_ne_of_not_mem hmark.1 (hc.not_mem_of_natural? hk)
  · obtain ⟨k, hk, -⟩ := Option.map_eq_some_iff.mp h
    exact hc.not_mem_of_natural? hk

theorem Foreign.not_mem_takeWhile (hc : Foreign c) (cs : List Char) :
    c ∉ cs.takeWhile Char.isDigit := by
  intro hmem
  exact hc.digit (List.all_eq_true.mp List.all_takeWhile c hmem)

theorem Foreign.not_mem_power (hc : Foreign c) {e : Char} {front back : List Char} {f : Fraction}
    (h : (if e = 'e' ∨ e = 'E' then (exponent? cs).map fun n => ⟨front, back, n⟩ else none) =
      some f) : c ∉ e :: cs := by
  have hmark := hc.mark
  simp only [List.mem_cons, List.not_mem_nil, or_false, not_or] at hmark
  obtain ⟨he, hsome⟩ := Option.ite_none_right_eq_some.mp h
  obtain ⟨n, hn, -⟩ := Option.map_eq_some_iff.mp hsome
  apply List.not_mem_cons_of_ne_of_not_mem _ (hc.not_mem_exponent hn)
  rcases he with rfl | rfl
  · exact hmark.2.2.2.1
  · exact hmark.2.2.2.2

/-- The digits in front are followed by a point with more digits, by an exponent, or by both. -/
theorem Foreign.not_mem_fraction (hc : Foreign c) {f : Fraction} (h : fraction? cs = some f) :
    c ∉ cs := by
  have hrest : c ∉ cs.dropWhile Char.isDigit := by
    unfold fraction? at h
    dsimp only at h
    split at h
    · rename_i tail htail
      have hback : c ∉ tail.dropWhile Char.isDigit := by
        dsimp only at h
        split at h
        · cases h
        split at h
        · rename_i hnil
          rw [hnil]
          exact List.not_mem_nil
        · rename_i hpower
          rw [hpower]
          exact hc.not_mem_power h
      have hpoint := hc.mark
      simp only [List.mem_cons, not_or] at hpoint
      rw [htail]
      apply List.not_mem_cons_of_ne_of_not_mem hpoint.2.2.1
      rw [← List.takeWhile_append_dropWhile (p := Char.isDigit) (l := tail)]
      exact List.not_mem_append (hc.not_mem_takeWhile tail) hback
    · dsimp only at h
      split at h
      · cases h
      split at h
      · rename_i hnil
        rw [hnil]
        exact List.not_mem_nil
      · rename_i hpower
        rw [hpower]
        exact hc.not_mem_power h
  rw [← List.takeWhile_append_dropWhile (p := Char.isDigit) (l := cs)]
  exact List.not_mem_append (hc.not_mem_takeWhile cs) hrest

theorem Foreign.not_mem_unsigned (hc : Foreign c) {negative : Bool} {b : Binary64}
    (h : unsignedReading? negative cs = some b) : c ∉ cs := by
  have hname : ∀ name : String, String.ofList (cs.map Char.toLower) = name →
      (∀ d ∈ name.toList, d ∈ ['i', 'n', 'f', 't', 'y', 'a']) → c ∉ cs := by
    rintro name rfl hletters hmem
    apply hc.letter
    apply hletters
    rw [String.toList_ofList]
    exact List.mem_map_of_mem hmem
  unfold unsignedReading? at h
  dsimp only at h
  split at h
  · rename_i hinf
    rcases hinf with hinf | hinf
    · exact hname _ hinf (Text.forall_mem_of_all (by decide))
    · exact hname _ hinf (Text.forall_mem_of_all (by decide))
  split at h
  · rename_i hnan
    exact hname _ hnan (Text.forall_mem_of_all (by decide))
  · obtain ⟨f, hf, -⟩ := Option.map_eq_some_iff.mp h
    exact hc.not_mem_fraction hf

/-- What can be read as a number is written with the characters of numbers. -/
theorem Foreign.not_mem_reading (hc : Foreign c) {s : String} {x : Float}
    (h : reading? s = some x) : c ∉ s.toList := by
  have hmark := hc.mark
  simp only [List.mem_cons, List.not_mem_nil, or_false, not_or] at hmark
  obtain ⟨b, hb, -⟩ := Option.map_eq_some_iff.mp h
  unfold binary64? at hb
  split at hb
  · rename_i rest heq
    rw [heq]
    exact List.not_mem_cons_of_ne_of_not_mem hmark.2.1 (hc.not_mem_unsigned hb)
  · rename_i rest heq
    rw [heq]
    exact List.not_mem_cons_of_ne_of_not_mem hmark.1 (hc.not_mem_unsigned hb)
  · exact hc.not_mem_unsigned hb

end Foreign

end PhasedGrid.Decimal
