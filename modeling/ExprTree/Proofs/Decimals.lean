import ExprTree.Number.Numeral
import ExprTree.Proofs.Reading

/-!
The shape of decimal numerals: digits with or without a point, a point with digits after it, and
maybe an exponent with digits. What `munch` takes is `WellFormed`, and a numeral that is well-formed
is munched whole again from its own text; so a text stands for a number exactly if it has the shape,
see `isDecimal_iff`.
-/

namespace ExprTree.Decimals

open Reading

/-- One digit or more. -/
def Digits (cs : List Char) : Prop :=
  cs ≠ [] ∧ ∀ c ∈ cs, c.isDigit = true

/-- A numeral up to its exponent. -/
inductive IsMantissa : List Char → Prop
  | whole {ds : List Char} : Digits ds → IsMantissa ds
  | point {ds fs : List Char} : Digits ds → (∀ c ∈ fs, c.isDigit = true) →
    IsMantissa (ds ++ '.' :: fs)
  | fraction {fs : List Char} : Digits fs → IsMantissa ('.' :: fs)

/-- An exponent with its marker. -/
inductive IsExponent : List Char → Prop
  | plain {m : Char} {ds : List Char} : m = 'e' ∨ m = 'E' → Digits ds → IsExponent (m :: ds)
  | signed {m s : Char} {ds : List Char} : m = 'e' ∨ m = 'E' → s = '+' ∨ s = '-' → Digits ds →
    IsExponent (m :: s :: ds)

/-- A decimal numeral. -/
def IsDecimal (cs : List Char) : Prop :=
  ∃ mantissa exponent, cs = mantissa ++ exponent ∧ IsMantissa mantissa ∧
    (exponent = [] ∨ IsExponent exponent)

/-- An exponent that can be munched from a text. -/
structure WellMarked (x : Exponent) : Prop where
  marker : x.marker = 'e' ∨ x.marker = 'E'
  sign : ∀ s ∈ x.sign, s = '+' ∨ s = '-'
  digits : ∀ d ∈ x.digits, d.isDigit = true

/-- A numeral that can be munched from a text. -/
structure WellFormed (n : Numeral) : Prop where
  whole : ∀ d ∈ n.whole, d.isDigit = true
  fraction : ∀ fs ∈ n.fraction, ∀ d ∈ fs, d.isDigit = true
  exponent : ∀ x ∈ n.exponent, WellMarked x

section

variable {cs ds rest : List Char} {x : Exponent} {n : Numeral}

theorem wellMarked_munch (cs : List Char) : ∀ x ∈ (Exponent.munch cs).1, WellMarked x := by
  unfold Exponent.munch
  split
  · rintro x ⟨⟩
  · split
    · rename_i hm
      split
      · rintro x ⟨⟩
        exact ⟨hm, by rintro s ⟨⟩, List.forall_mem_nil _⟩
      · split
        · rename_i hs
          rintro x ⟨⟩
          refine ⟨hm, ?_, fun _ => List.mem_takeWhile_imp⟩
          rintro s ⟨⟩
          exact hs
        · rintro x ⟨⟩
          exact ⟨hm, by rintro s ⟨⟩, fun _ => List.mem_takeWhile_imp⟩
    · rintro x ⟨⟩

theorem wellFormed_munch (cs : List Char) : WellFormed (Numeral.munch cs).1 := by
  refine ⟨fun _ => List.mem_takeWhile_imp, ?_, wellMarked_munch _⟩
  change ∀ fs ∈ (Numeral.munchFraction _).1, _
  unfold Numeral.munchFraction
  split
  · rintro fs ⟨⟩
    exact fun _ => List.mem_takeWhile_imp
  · rintro fs ⟨⟩

/-- No sign of an exponent is a digit. -/
theorem not_sign_of_isDigit {d : Char} (hd : d.isDigit = true) : ¬ (d = '+' ∨ d = '-') := by
  rintro (rfl | rfl) <;> cases hd

theorem takeWhile_eq_self (hds : ∀ d ∈ ds, d.isDigit = true) : ds.takeWhile Char.isDigit = ds :=
  List.takeWhile_eq_self_iff.mpr hds

theorem dropWhile_eq_nil (hds : ∀ d ∈ ds, d.isDigit = true) : ds.dropWhile Char.isDigit = [] :=
  List.dropWhile_eq_nil_iff.mpr hds

theorem exponent_munch_text (hx : WellMarked x) : Exponent.munch x.text = (some x, []) := by
  obtain ⟨marker, sign, digits⟩ := x
  obtain ⟨hmarker, hsign, hdigits⟩ := hx
  dsimp only at hmarker hsign hdigits
  cases sign with
  | some s =>
    have hs : s = '+' ∨ s = '-' := hsign s rfl
    simp [Exponent.munch, Exponent.text, hmarker, hs, takeWhile_eq_self hdigits,
      dropWhile_eq_nil hdigits]
  | none =>
    cases digits with
    | nil => simp [Exponent.munch, Exponent.text, hmarker]
    | cons d ds =>
      have hd := not_sign_of_isDigit (hdigits d List.mem_cons_self)
      have htake := takeWhile_eq_self hdigits
      have hdrop := dropWhile_eq_nil hdigits
      simp only [Exponent.munch, Exponent.text, Option.toList_none, List.nil_append, hmarker,
        if_true, hd, if_false, htake, hdrop]

/-- Nothing in front of an exponent goes on with its marker. -/
theorem not_isDigit_of_exponent {o : Option Exponent} (ho : ∀ x ∈ o, WellMarked x) :
    ∀ c ∈ (o.elim [] Exponent.text).head?, c.isDigit = false ∧ c ≠ '.' := by
  cases o with
  | none => rintro c ⟨⟩
  | some x =>
    rintro c ⟨⟩
    rcases (ho x rfl).marker with h | h <;> rw [h] <;> exact ⟨by decide, by decide⟩

theorem munchFraction_text {o : Option (List Char)} (ho : ∀ fs ∈ o, ∀ d ∈ fs, d.isDigit = true)
    (hrest : ∀ c ∈ rest.head?, c.isDigit = false ∧ c ≠ '.') :
    Numeral.munchFraction (o.elim [] ('.' :: ·) ++ rest) = (o, rest) := by
  have hdigit : ∀ c ∈ rest.head?, c.isDigit = false := fun c hc => (hrest c hc).1
  cases o with
  | some fs =>
    simp only [Option.elim_some, List.cons_append, Numeral.munchFraction,
      takeWhile_append_of_head hdigit, dropWhile_append_of_head hdigit,
      takeWhile_eq_self (ho fs rfl), dropWhile_eq_nil (ho fs rfl), List.nil_append]
  | none =>
    rw [Option.elim_none, List.nil_append]
    unfold Numeral.munchFraction
    split
    · exact absurd rfl (hrest '.' rfl).2
    · rfl

/-- A well-formed numeral is munched whole from its own text. -/
theorem munch_text (hn : WellFormed n) : Numeral.munch n.text = (n, []) := by
  obtain ⟨whole, fraction, exponent⟩ := n
  obtain ⟨hwhole, hfraction, hexponent⟩ := hn
  dsimp only at hwhole hfraction hexponent
  have hmarker := not_isDigit_of_exponent hexponent
  have hpoint : ∀ c ∈ (fraction.elim [] ('.' :: ·) ++ exponent.elim [] Exponent.text).head?,
      c.isDigit = false := by
    cases fraction with
    | none => exact fun c hc => (hmarker c hc).1
    | some fs =>
      rintro c ⟨⟩
      decide
  have hlast : Exponent.munch (exponent.elim [] Exponent.text) = (exponent, []) := by
    cases exponent with
    | none => rfl
    | some x => exact exponent_munch_text (hexponent x rfl)
  unfold Numeral.munch Numeral.text
  simp only [List.append_assoc, takeWhile_append_of_head hpoint, dropWhile_append_of_head hpoint,
    takeWhile_eq_self hwhole, dropWhile_eq_nil hwhole, List.nil_append,
    munchFraction_text hfraction hmarker, hlast]

/-- Digits alone are munched whole. -/
theorem munch_digits (hds : ∀ d ∈ ds, d.isDigit = true) :
    Numeral.munch ds = (⟨ds, none, none⟩, []) := by
  have hformed : WellFormed ⟨ds, none, none⟩ := ⟨hds, by simp, by simp⟩
  have hwhole := munch_text hformed
  rwa [Numeral.text, Option.elim_none, Option.elim_none, List.append_nil, List.append_nil] at hwhole

/-- A text stands for a number if it is a complete numeral, and then for the numeral's number. -/
theorem read?_eq_some_iff {value : Binary64} :
    Numeral.read? cs = some value ↔
      ∃ n, WellFormed n ∧ n.isComplete = true ∧ n.text = cs ∧ n.value = value := by
  constructor
  · intro h
    have hformed := wellFormed_munch cs
    have htext := Numeral.text_munch cs
    unfold Numeral.read? at h
    split at h
    · rename_i n hmunch
      rw [hmunch] at hformed htext
      split at h
      · rename_i hcomplete
        exact ⟨n, hformed, hcomplete, by simpa using htext, by simpa using h⟩
      · cases h
    · cases h
  · intro h
    obtain ⟨n, hformed, hcomplete, rfl, rfl⟩ := h
    simp only [Numeral.read?, munch_text hformed, hcomplete, if_true]

theorem isComplete_iff :
    n.isComplete = true ↔ n.mantissa ≠ [] ∧ ∀ x ∈ n.exponent, x.digits ≠ [] := by
  obtain ⟨whole, fraction, exponent⟩ := n
  cases exponent <;> simp [Numeral.isComplete, Numeral.lacksExponent]

theorem isMantissa_text {whole : List Char} {fraction : Option (List Char)}
    (hwhole : ∀ d ∈ whole, d.isDigit = true)
    (hfraction : ∀ fs ∈ fraction, ∀ d ∈ fs, d.isDigit = true)
    (hne : whole ++ fraction.getD [] ≠ []) :
    IsMantissa (whole ++ fraction.elim [] ('.' :: ·)) := by
  cases fraction with
  | none =>
    rw [Option.getD_none, List.append_nil] at hne
    rw [Option.elim_none, List.append_nil]
    exact .whole ⟨hne, hwhole⟩
  | some fs =>
    by_cases hnil : whole = []
    · subst hnil
      exact .fraction ⟨hne, hfraction fs rfl⟩
    · exact .point ⟨hnil, hwhole⟩ (hfraction fs rfl)

theorem isExponent_text (hx : WellMarked x) (hne : x.digits ≠ []) : IsExponent x.text := by
  obtain ⟨marker, sign, digits⟩ := x
  cases sign with
  | none => exact .plain hx.marker ⟨hne, hx.digits⟩
  | some s => exact .signed hx.marker (hx.sign s rfl) ⟨hne, hx.digits⟩

theorem exists_of_isMantissa (h : IsMantissa cs) :
    ∃ (whole : List Char) (fraction : Option (List Char)),
      (∀ d ∈ whole, d.isDigit = true) ∧ (∀ fs ∈ fraction, ∀ d ∈ fs, d.isDigit = true) ∧
      whole ++ fraction.getD [] ≠ [] ∧ cs = whole ++ fraction.elim [] ('.' :: ·) := by
  cases h with
  | whole hds => exact ⟨cs, none, hds.2, by rintro _ ⟨⟩, by simpa using hds.1, by simp⟩
  | @point ds fs hds hfs =>
    refine ⟨ds, some fs, hds.2, ?_, by simp [hds.1], rfl⟩
    rintro _ ⟨⟩
    exact hfs
  | @fraction fs hfs =>
    refine ⟨[], some fs, List.forall_mem_nil _, ?_, by simpa using hfs.1, rfl⟩
    rintro _ ⟨⟩
    exact hfs.2

theorem exists_of_isExponent (h : IsExponent cs) :
    ∃ x, WellMarked x ∧ x.digits ≠ [] ∧ cs = x.text := by
  cases h with
  | @plain m ds hm hds => exact ⟨⟨m, none, ds⟩, ⟨hm, by rintro _ ⟨⟩, hds.2⟩, hds.1, rfl⟩
  | @signed m s ds hm hs hds =>
    refine ⟨⟨m, some s, ds⟩, ⟨hm, ?_, hds.2⟩, hds.1, rfl⟩
    rintro _ ⟨⟩
    exact hs

theorem isDecimal_iff_exists :
    IsDecimal cs ↔ ∃ n, WellFormed n ∧ n.isComplete = true ∧ n.text = cs := by
  constructor
  · intro h
    obtain ⟨mantissa, exponent, rfl, hmantissa, hexponent⟩ := h
    obtain ⟨whole, fraction, hwhole, hfraction, hne, rfl⟩ := exists_of_isMantissa hmantissa
    rcases hexponent with rfl | hexponent
    · refine ⟨⟨whole, fraction, none⟩, ⟨hwhole, hfraction, by rintro _ ⟨⟩⟩, ?_, rfl⟩
      exact isComplete_iff.mpr ⟨hne, by rintro _ ⟨⟩⟩
    · obtain ⟨x, hx, hdigits, rfl⟩ := exists_of_isExponent hexponent
      refine ⟨⟨whole, fraction, some x⟩, ⟨hwhole, hfraction, ?_⟩, isComplete_iff.mpr ⟨hne, ?_⟩, rfl⟩
      · rintro _ ⟨⟩
        exact hx
      · rintro _ ⟨⟩
        exact hdigits
  · intro h
    obtain ⟨n, hn, hcomplete, rfl⟩ := h
    obtain ⟨hne, hdigits⟩ := isComplete_iff.mp hcomplete
    refine ⟨_, _, rfl, isMantissa_text hn.whole hn.fraction hne, ?_⟩
    cases hexponent : n.exponent with
    | none => exact .inl rfl
    | some x => exact .inr (isExponent_text (hn.exponent x hexponent) (hdigits x hexponent))

/-- The texts that stand for numbers are the decimal numerals. -/
theorem isDecimal_iff : IsDecimal cs ↔ (Numeral.read? cs).isSome = true := by
  rw [isDecimal_iff_exists, Option.isSome_iff_exists]
  constructor
  · intro h
    obtain ⟨n, hformed, hcomplete, htext⟩ := h
    exact ⟨n.value, read?_eq_some_iff.mpr ⟨n, hformed, hcomplete, htext, rfl⟩⟩
  · intro h
    obtain ⟨value, hvalue⟩ := h
    obtain ⟨n, hformed, hcomplete, htext, -⟩ := read?_eq_some_iff.mp hvalue
    exact ⟨n, hformed, hcomplete, htext⟩

end

end ExprTree.Decimals
