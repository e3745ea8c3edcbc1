import ExprTree.Proofs.Decimals

/-!
How numerals are read, whatever the letters of names. What is munched is the longest beginning of
the text that has the shape of a numeral, digits missing or not; see `isMunch_munch`. It then
depends on the munched text and the next character alone whether there is a number, a name that
begins with digits, or an error: see `numeral_classified`.
-/

namespace ExprTree.Numerals

open Parse Reading Decimals

/-- The shape of a numeral, in which any run of digits may be empty. -/
def Begun (cs : List Char) : Prop :=
  ∃ n, WellFormed n ∧ n.text = cs

/-- The longest beginning of a text that has the shape of a numeral. -/
structure IsMunch (text munched : List Char) : Prop where
  begun : Begun munched
  begins : munched <+: text
  longest : ∀ cs, Begun cs → cs <+: text → cs.length ≤ munched.length

section

variable {text munched other rest : List Char} {n : Numeral} {x : Exponent}

theorem IsMunch.unique (h : IsMunch text munched) (h' : IsMunch text other) : other = munched := by
  have hlength : other.length = munched.length :=
    Nat.le_antisymm (h.longest other h'.begun h'.begins) (h'.longest munched h.begun h.begins)
  rw [List.prefix_iff_eq_take.mp h'.begins, List.prefix_iff_eq_take.mp h.begins, hlength]

theorem dropWhile_digits_append {ds : List Char} (hds : ∀ d ∈ ds, d.isDigit = true)
    (rest : List Char) : (ds ++ rest).dropWhile Char.isDigit <:+ rest := by
  rw [List.dropWhile_append_of_pos hds]
  exact List.dropWhile_suffix _

theorem exponent_rest_suffix (cs : List Char) : (Exponent.munch cs).2 <:+ cs :=
  ⟨_, Exponent.text_munch cs⟩

theorem fraction_rest_suffix (cs : List Char) : (Numeral.munchFraction cs).2 <:+ cs :=
  ⟨_, Numeral.text_munchFraction cs⟩

/-- Where an exponent stands, at least that much is munched. -/
theorem exponent_rest_of_text (hx : WellMarked x) (rest : List Char) :
    (Exponent.munch (x.text ++ rest)).2 <:+ rest := by
  obtain ⟨marker, sign, digits⟩ := x
  obtain ⟨hmarker, hsign, hdigits⟩ := hx
  dsimp only at hmarker hsign hdigits
  cases sign with
  | some s =>
    have hs : s = '+' ∨ s = '-' := hsign s rfl
    simpa [Exponent.munch, Exponent.text, hmarker, hs] using dropWhile_digits_append hdigits rest
  | none =>
    cases digits with
    | nil =>
      cases rest with
      | nil => simp [Exponent.munch, Exponent.text, hmarker]
      | cons s ds =>
        have hdrop := List.dropWhile_suffix (l := ds) Char.isDigit
        have hdrop' := List.dropWhile_suffix (l := s :: ds) Char.isDigit
        simp only [Exponent.munch, Exponent.text, Option.toList_none, List.nil_append, hmarker,
          if_true, List.cons_append]
        split
        · exact hdrop.trans (List.suffix_cons s ds)
        · exact hdrop'
    | cons d ds =>
      have hd := not_sign_of_isDigit (hdigits d List.mem_cons_self)
      have hdrop := dropWhile_digits_append hdigits rest
      simpa only [Exponent.munch, Exponent.text, Option.toList_none, List.nil_append, hmarker,
        if_true, hd, if_false, List.cons_append] using hdrop

/-- What is left of a text that begins with a numeral is left behind the numeral. -/
theorem munch_rest_suffix (hn : WellFormed n) (rest : List Char) :
    (Numeral.munch (n.text ++ rest)).2 <:+ rest := by
  obtain ⟨whole, fraction, exponent⟩ := n
  obtain ⟨hwhole, hfraction, hexponent⟩ := hn
  dsimp only at hwhole hfraction hexponent
  change (Exponent.munch (Numeral.munchFraction (List.dropWhile _ _)).2).2 <:+ rest
  simp only [Numeral.text, List.append_assoc]
  cases exponent with
  | some x =>
    have hx := hexponent x rfl
    have hmarker : ∀ c ∈ (x.text ++ rest).head?, c.isDigit = false ∧ c ≠ '.' :=
      not_isDigit_of_exponent hexponent
    rw [Option.elim_some, dropWhile_append_of_head ?_, dropWhile_eq_nil hwhole, List.nil_append,
      munchFraction_text hfraction hmarker]
    · exact exponent_rest_of_text hx rest
    · cases fraction with
      | none => exact fun c hc => (hmarker c hc).1
      | some fs =>
        rintro c ⟨⟩
        decide
  | none =>
    rw [Option.elim_none, List.nil_append]
    refine (exponent_rest_suffix _).trans ?_
    cases fraction with
    | none => exact (fraction_rest_suffix _).trans (dropWhile_digits_append hwhole rest)
    | some fs =>
      rw [Option.elim_some, List.cons_append, dropWhile_append_of_head (by rintro c ⟨⟩; decide),
        dropWhile_eq_nil hwhole, List.nil_append]
      exact dropWhile_digits_append (hfraction fs rfl) rest

/-- Munching takes as much of a text as has the shape of a numeral. -/
theorem isMunch_munch (text : List Char) : IsMunch text (Numeral.munch text).1.text := by
  refine ⟨⟨_, wellFormed_munch text, rfl⟩, ⟨_, Numeral.text_munch text⟩, ?_⟩
  rintro cs ⟨n, hn, rfl⟩ ⟨rest, rfl⟩
  have hlength := congrArg List.length (Numeral.text_munch (n.text ++ rest))
  have hle := (munch_rest_suffix hn rest).length_le
  simp only [List.length_append] at hlength
  omega

theorem read?_text (hn : WellFormed n) :
    Numeral.read? n.text = if n.isComplete then some n.value else none := by
  rw [Numeral.read?, munch_text hn]

theorem isDecimal_text_iff (hn : WellFormed n) : IsDecimal n.text ↔ n.isComplete = true := by
  rw [isDecimal_iff, read?_text hn]
  cases h : n.isComplete <;> simp

end

section

variable {l : Letters} {c : Cursor} {n : Numeral} {rest : List Char}

/-- The place behind as many characters as a text has, in no branch. -/
def after (c : Cursor) (text : List Char) : State :=
  ⟨c.advance text.length, false⟩

theorem ahead_after {text : List Char} (hc : text ++ rest = c.ahead) :
    (after c text).cursor.ahead = rest :=
  ahead_advance_of_append hc.symm

/-- A numeral with letters after it is a name if all of it is made of characters of names. -/
theorem nameFromNumeral_done (hc : n.text ++ rest = c.ahead) (hall : n.text.all l.isPart = true)
    {d : Char} (hd : d ∈ rest.head?) (hstart : l.isStart d = true) (cause : Cause) :
    nameFromNumeral l n.text cause (after c n.text) =
      .done (.plain (String.ofList (c.ahead.takeWhile l.isPart)))
        (after c (c.ahead.takeWhile l.isPart)) := by
  have hahead := ahead_after hc
  have hpeek : (after c n.text).cursor.peek? = some d := by rw [peek?_of_ahead hahead]; exact hd
  have hname := name_of_isStart hpeek hstart
  rw [hahead] at hname
  have htake : c.ahead.takeWhile l.isPart = n.text ++ rest.takeWhile l.isPart := by
    rw [← hc, List.takeWhile_append_of_pos (List.all_eq_true.mp hall)]
  unfold nameFromNumeral
  rw [if_pos hall, bind_of_done hname, htake, String.ofList_append]
  simp only [after, Cursor.advance_advance, List.length_append]
  rfl

theorem nameFromNumeral_failed (hc : n.text ++ rest = c.ahead)
    (h : ¬(n.text.all l.isPart = true ∧ ∃ d ∈ rest.head?, l.isStart d = true)) (cause : Cause) :
    ∃ e, nameFromNumeral l n.text cause (after c n.text) = .failed e := by
  unfold nameFromNumeral
  by_cases hall : n.text.all l.isPart = true
  · obtain ⟨e, he⟩ : ∃ e, name l (after c n.text) = .failed e := by
      apply exists_name_failed
      intro d hd
      rw [peek?_of_ahead (ahead_after hc)] at hd
      rw [← Bool.not_eq_true]
      exact fun hstart => h ⟨hall, d, hd, hstart⟩
    rw [if_pos hall]
    exact ⟨e, bind_of_failed he _⟩
  · rw [if_neg hall]
    exact ⟨_, rfl⟩

/-- A complete numeral stands for a number unless a name or a second point goes on after it. -/
def IsNumber (l : Letters) (munched : List Char) (next : Option Char) : Prop :=
  IsDecimal munched ∧ ∀ d ∈ next, l.isStart d = false ∧ d ≠ '.'

/-- Characters of names are part of a name if a name goes on after them. -/
def IsName (l : Letters) (munched : List Char) (next : Option Char) : Prop :=
  (∀ d ∈ munched, l.isPart d = true) ∧ ∃ d ∈ next, l.isStart d = true

theorem IsNumber.not_isName {munched : List Char} {next : Option Char}
    (h : IsNumber l munched next) : ¬IsName l munched next := by
  rintro ⟨-, d, hd, hstart⟩
  rw [(h.2 d hd).1] at hstart
  cases hstart

/-- A numeral in no branch of a conditional, by the text that is munched and what follows it. -/
theorem numeral_eq (l : Letters) (c : Cursor) :
    let n := (Numeral.munch c.ahead).1
    let next := (Numeral.munch c.ahead).2.head?
    numeral l ⟨c, false⟩ =
      if n.lacksExponent then
        nameFromNumeral l n.text (.noExponent (String.ofList n.text) next) (after c n.text)
      else match next with
        | none => numberOf n c.index (after c n.text)
        | some d =>
          if l.isStart d then
            nameFromNumeral l n.text (.nameAfterNumeral (String.ofList n.text) d) (after c n.text)
          else if d = '.' then .failed ⟨.secondPeriod, (after c n.text).cursor.index⟩
          else numberOf n c.index (after c n.text) := by
  intro n next
  unfold numeral
  simp only [bind_here_apply, bind_advance_apply, ite_step]
  refine ite_congr rfl (fun _ => rfl) fun _ => ?_
  change (match next with | none => _ | some d => _ : Parse Node) (after c n.text) = _
  cases next with
  | none => rfl
  | some d =>
    have hbranch : ¬(d = ':' ∧ false = true) := fun h => Bool.false_ne_true h.2
    simp only [bind_inBranch_apply, after, hbranch, if_false, ite_step]
    rfl

theorem lacksExponent_of_isComplete {n : Numeral} (h : n.isComplete = true) :
    n.lacksExponent = false := by
  unfold Numeral.isComplete at h
  simpa using (Bool.and_eq_true_iff.mp h).2

/-- Where no name and no second point goes on, a numeral is a number if it is complete. -/
theorem numeral_of_ended {n : Numeral} (hmunch : (Numeral.munch c.ahead).1 = n)
    (hexponent : n.lacksExponent = false)
    (hnext : ∀ d ∈ (Numeral.munch c.ahead).2.head?, l.isStart d = false ∧ d ≠ '.') :
    numeral l ⟨c, false⟩ = numberOf n c.index (after c n.text) := by
  subst hmunch
  rw [numeral_eq, if_neg (by simp [hexponent])]
  split
  · rfl
  · rename_i d hd
    obtain ⟨hstart, hpoint⟩ := hnext d hd
    rw [if_neg (by simp [hstart]), if_neg hpoint]

theorem numeral_isNumber {n : Numeral} (hmunch : (Numeral.munch c.ahead).1 = n)
    (h : IsNumber l n.text (Numeral.munch c.ahead).2.head?) :
    numeral l ⟨c, false⟩ =
      .done (.literal (.number n.value) (String.ofList n.text)) (after c n.text) := by
  have hcomplete : n.isComplete = true :=
    (isDecimal_text_iff (hmunch ▸ wellFormed_munch c.ahead)).mp h.1
  rw [numeral_of_ended hmunch (lacksExponent_of_isComplete hcomplete) h.2, numberOf,
    if_pos hcomplete]
  rfl

theorem numeral_isName {n : Numeral} (hmunch : (Numeral.munch c.ahead).1 = n)
    (h : IsName l n.text (Numeral.munch c.ahead).2.head?) :
    numeral l ⟨c, false⟩ = .done (.plain (String.ofList (c.ahead.takeWhile l.isPart)))
      (after c (c.ahead.takeWhile l.isPart)) := by
  subst hmunch
  obtain ⟨hall, d, hd, hstart⟩ := h
  have hname := nameFromNumeral_done (Numeral.text_munch c.ahead) (List.all_eq_true.mpr hall) hd
    hstart
  rw [numeral_eq]
  split
  · exact hname _
  · rw [Option.mem_def.mp hd]
    simp only [hstart, if_true]
    exact hname _

theorem numeral_failed {n : Numeral} (hmunch : (Numeral.munch c.ahead).1 = n)
    (hnumber : ¬IsNumber l n.text (Numeral.munch c.ahead).2.head?)
    (hname : ¬IsName l n.text (Numeral.munch c.ahead).2.head?) :
    ∃ e, numeral l ⟨c, false⟩ = .failed e := by
  have hformed : WellFormed n := hmunch ▸ wellFormed_munch c.ahead
  have hfails : ∀ cause, ∃ e, nameFromNumeral l n.text cause (after c n.text) = .failed e := by
    subst hmunch
    refine nameFromNumeral_failed (Numeral.text_munch c.ahead) ?_
    rintro ⟨hall, hstart⟩
    exact hname ⟨List.all_eq_true.mp hall, hstart⟩
  cases hexponent : n.lacksExponent with
  | true =>
    rw [numeral_eq, hmunch, if_pos hexponent]
    exact hfails _
  | false =>
    by_cases hnext : ∀ d ∈ (Numeral.munch c.ahead).2.head?, l.isStart d = false ∧ d ≠ '.'
    · have hincomplete : n.isComplete = false := by
        rw [← Bool.not_eq_true, ← isDecimal_text_iff hformed]
        exact fun hdecimal => hnumber ⟨hdecimal, hnext⟩
      rw [numeral_of_ended hmunch hexponent hnext, numberOf, if_neg (by simp [hincomplete])]
      exact ⟨_, rfl⟩
    · obtain ⟨d, hd, hends⟩ : ∃ d ∈ (Numeral.munch c.ahead).2.head?,
          ¬(l.isStart d = false ∧ d ≠ '.') := by
        simpa only [not_forall, exists_prop] using hnext
      rw [numeral_eq, hmunch, if_neg (by simp [hexponent]), Option.mem_def.mp hd]
      by_cases hstart : l.isStart d = true
      · simp only [hstart, if_true]
        exact hfails _
      · obtain rfl : d = '.' := by simpa [hstart] using hends
        exact ⟨_, (if_neg hstart).trans (if_pos rfl)⟩

/-- What a numeral is depends on the munched text and the character after it: a number with that
text, or the whole run of characters of names, or else an error. The reading ends behind what was
taken. -/
theorem numeral_classified (l : Letters) (c : Cursor) :
    ∃ munched, IsMunch c.ahead munched ∧ (∀ other, IsMunch c.ahead other → other = munched) ∧
      let next := (c.ahead.drop munched.length).head?
      (∀ n t, numeral l ⟨c, false⟩ = .done n t ↔
        (IsNumber l munched next ∧ t = after c munched ∧
          ∃ x, Numeral.read? munched = some x ∧
            n = .literal (.number x) (String.ofList munched)) ∨
        (IsName l munched next ∧ t = after c (c.ahead.takeWhile l.isPart) ∧
          n = .plain (String.ofList (c.ahead.takeWhile l.isPart)))) ∧
      ((∃ e, numeral l ⟨c, false⟩ = .failed e) ↔
        ¬IsNumber l munched next ∧ ¬IsName l munched next) := by
  obtain ⟨m, hm⟩ : ∃ m, (Numeral.munch c.ahead).1 = m := ⟨_, rfl⟩
  have hmunch : IsMunch c.ahead m.text := hm ▸ isMunch_munch c.ahead
  have hformed : WellFormed m := hm ▸ wellFormed_munch c.ahead
  have hnext : (c.ahead.drop m.text.length).head? = (Numeral.munch c.ahead).2.head? := by
    have hsplit := Numeral.text_munch c.ahead
    rw [hm] at hsplit
    exact congrArg List.head? (ahead_after hsplit)
  refine ⟨m.text, hmunch, fun other => hmunch.unique, ?_⟩
  rw [hnext]
  intro next
  by_cases hnumber : IsNumber l m.text next
  · have hread : Numeral.read? m.text = some m.value := by
      rw [read?_text hformed, if_pos ((isDecimal_text_iff hformed).mp hnumber.1)]
    rw [numeral_isNumber hm hnumber]
    refine ⟨fun n t => ⟨?_, ?_⟩, by rintro ⟨e, ⟨⟩⟩, fun h => absurd hnumber h.1⟩
    · rintro ⟨⟩
      exact .inl ⟨hnumber, rfl, m.value, hread, rfl⟩
    · rintro (⟨-, rfl, x, hx, rfl⟩ | ⟨hname, -⟩)
      · cases hread.symm.trans hx
        rfl
      · exact absurd hname hnumber.not_isName
  · by_cases hname : IsName l m.text next
    · rw [numeral_isName hm hname]
      refine ⟨fun n t => ⟨?_, ?_⟩, by rintro ⟨e, ⟨⟩⟩, fun h => absurd hname h.2⟩
      · rintro ⟨⟩
        exact .inr ⟨hname, rfl, rfl⟩
      · rintro (⟨h, -⟩ | ⟨-, rfl, rfl⟩)
        · exact absurd h hnumber
        · rfl
    · obtain ⟨e, he⟩ := numeral_failed hm hnumber hname
      rw [he]
      refine ⟨fun n t => ⟨by rintro ⟨⟩, ?_⟩, fun _ => ⟨hnumber, hname⟩, fun _ => ⟨e, rfl⟩⟩
      rintro (⟨h, -⟩ | ⟨h, -⟩)
      · exact absurd h hnumber
      · exact absurd h hname

end

end ExprTree.Numerals
