import ExprTree.Proofs.Cuts
import ExprTree.Proofs.QuotedTexts

/-!
How quoted texts are read. Behind the opening quote a text falls into single characters and escapes,
and a quote that is not part of an escape closes it. The first such quote is where the reading ends;
without one there is an error at the end of the source. Every text can be put between quotes: with a
backslash before each quote and each backslash it is read back, whatever stands behind it.
-/

namespace ExprTree.Quotations

open Parse Reading QuotedText

/-- A text of whole characters and escapes. An escape is a backslash with the character after it,
and escapes are taken from left to right. -/
inductive Units : List Char → Prop
  | nil : Units []
  | plain {c : Char} {rest : List Char} : c ≠ '\\' → Units rest → Units (c :: rest)
  | escape {c : Char} {rest : List Char} : Units rest → Units ('\\' :: c :: rest)

/-- Right behind a beginning of the text stands a quote that is not part of an escape. -/
def Closes (quote : Char) (text body : List Char) : Prop :=
  Units body ∧ body ++ [quote] <+: text

/-- The quote behind the beginning is the first one of its kind. -/
structure ClosesFirst (quote : Char) (text body : List Char) : Prop where
  closes : Closes quote text body
  first : ∀ other, Closes quote text other → body.length ≤ other.length

/-- A text with a backslash before each quote and each backslash. -/
def escape (quote : Char) (v : List Char) : List Char :=
  v.flatMap fun c => if c = quote ∨ c = '\\' then ['\\', c] else [c]

section

variable {quote : Char} {text body other : List Char}

theorem units_of_unquoted (h : Unquoted quote body) : Units body := by
  induction h with
  | nil => exact .nil
  | plain _ hescape _ ih => exact .plain hescape ih
  | escaped _ ih => exact .escape ih

/-- Where a quote closes a text, there is one with no such quote before it. -/
theorem exists_unquoted (h : Closes quote text body) :
    ∃ first, Unquoted quote first ∧ first ++ [quote] <+: text := by
  obtain ⟨hunits, rest, rfl⟩ := h
  induction hunits with
  | nil => exact ⟨[], .nil, rest, rfl⟩
  | @plain c more hc _ ih =>
    obtain ⟨first, hfirst, hbegins⟩ := ih
    by_cases hquote : c = quote
    · exact ⟨[], .nil, more ++ [quote] ++ rest, by simp [hquote]⟩
    · exact ⟨c :: first, .plain hquote hc hfirst, List.cons_prefix_cons.mpr ⟨rfl, hbegins⟩⟩
  | @escape c more _ ih =>
    obtain ⟨first, hfirst, hbegins⟩ := ih
    refine ⟨'\\' :: c :: first, .escaped hfirst, ?_⟩
    exact List.cons_prefix_cons.mpr ⟨rfl, List.cons_prefix_cons.mpr ⟨rfl, hbegins⟩⟩

/-- A quote that closes a text is not inside of a beginning without such quotes. -/
theorem length_le_of_closes (hescape : quote ≠ '\\') (h : Unquoted quote body)
    (hbody : body <+: text) (hother : Closes quote text other) : body.length ≤ other.length := by
  obtain ⟨hunits, hbegins⟩ := hother
  induction h generalizing text other with
  | nil => exact Nat.zero_le _
  | @plain c rest hquote hc _ ih =>
    obtain ⟨more, rfl⟩ := hbody
    cases hunits with
    | nil => exact absurd (List.cons_prefix_cons.mp hbegins).1.symm hquote
    | plain _ hunits =>
      have hle := ih ⟨more, rfl⟩ hunits (List.cons_prefix_cons.mp hbegins).2
      exact Nat.succ_le_succ hle
    | escape => exact absurd (List.cons_prefix_cons.mp hbegins).1.symm hc
  | @escaped c rest _ ih =>
    obtain ⟨more, rfl⟩ := hbody
    cases hunits with
    | nil => exact absurd (List.cons_prefix_cons.mp hbegins).1 hescape
    | plain hc => exact absurd (List.cons_prefix_cons.mp hbegins).1 hc
    | escape hunits =>
      have hrest := (List.cons_prefix_cons.mp (List.cons_prefix_cons.mp hbegins).2).2
      exact Nat.succ_le_succ (Nat.succ_le_succ (ih ⟨more, rfl⟩ hunits hrest))

/-- Without such quotes in it, a beginning ends at the first quote that closes the text. -/
theorem closesFirst_of_unquoted (hescape : quote ≠ '\\') (h : Unquoted quote body)
    (hbegins : body ++ [quote] <+: text) : ClosesFirst quote text body := by
  refine ⟨⟨units_of_unquoted h, hbegins⟩, fun other hother => ?_⟩
  exact length_le_of_closes hescape h ((List.prefix_append _ _).trans hbegins) hother

theorem ClosesFirst.unique (h : ClosesFirst quote text body) (h' : ClosesFirst quote text other) :
    other = body := by
  have hbody : body <+: text := (List.prefix_append _ _).trans h.closes.2
  have hother : other <+: text := (List.prefix_append _ _).trans h'.closes.2
  have hle := h'.first body h.closes
  exact (List.prefix_of_prefix_length_le hother hbody hle).eq_of_length_le (h.first other h'.closes)

/-- A text is read as closed exactly if a quote closes it. -/
theorem closed_iff (hescape : quote ≠ '\\') :
    (Quotation.scan quote text).closed = true ↔ ∃ body, Closes quote text body := by
  constructor
  · intro h
    obtain ⟨body, hraw, hbody, -⟩ := isText_scan h
    refine ⟨body, units_of_unquoted hbody, ?_⟩
    rw [← (List.cons.inj hraw).2]
    exact Cuts.raw_prefix_of_scan quote text
  · rintro ⟨body, h⟩
    obtain ⟨first, hfirst, after, rfl⟩ := exists_unquoted h
    rw [List.append_assoc, List.singleton_append, scan_unquoted hescape hfirst]

theorem escape_cons (c : Char) (v : List Char) :
    escape quote (c :: v) = (if c = quote ∨ c = '\\' then ['\\', c] else [c]) ++ escape quote v :=
  List.flatMap_cons

theorem unquoted_escape (v : List Char) : Unquoted quote (escape quote v) := by
  induction v with
  | nil => exact .nil
  | cons c v ih =>
    rw [escape_cons]
    split
    · exact .escaped ih
    · rename_i hc
      rw [not_or] at hc
      exact .plain hc.1 hc.2 ih

/-- An escaped text is resolved to itself, since quotes and backslashes stand for themselves. -/
theorem decode_escape (hquote : meant quote = quote) (v : List Char) :
    decode (escape quote v) = v := by
  induction v with
  | nil => rfl
  | cons c v ih =>
    rw [escape_cons]
    split
    · rename_i hc
      have hself : meant c = c := by
        rcases hc with rfl | rfl
        · exact hquote
        · rfl
      calc decode ('\\' :: c :: escape quote v)
          = meant c :: decode (escape quote v) := rfl
        _ = c :: v := by rw [hself, ih]
    · rename_i hc
      rw [not_or] at hc
      rw [List.singleton_append, decode_cons hc.2, ih]

end

section

variable {s : State} {quote : Char} {text : List Char}

/-- The reading of a quoted text, by whether it is closed. -/
theorem quotation_eq (hs : s.cursor.ahead = quote :: text) :
    let q := Quotation.scan quote text
    quotation s =
      if q.closed then
        .done (String.ofList q.value, String.ofList (quote :: q.raw))
          { s with cursor := s.cursor.advance (q.raw.length + 1) }
      else .failed ⟨.openQuote quote (String.ofList q.value),
        (s.cursor.advance (q.raw.length + 1)).index⟩ := by
  intro q
  unfold quotation
  rw [bind_here_apply, hs]
  simp only [bind_advance_apply, ite_step]
  rfl

theorem quotation_of_unquoted (hescape : quote ≠ '\\') {body after : List Char}
    (h : Unquoted quote body) (hs : s.cursor.ahead = quote :: (body ++ quote :: after)) :
    quotation s = .done (String.ofList (decode body), String.ofList (quote :: (body ++ [quote])))
      { s with cursor := s.cursor.advance (body.length + 2) } := by
  rw [quotation_eq hs, scan_unquoted hescape h, if_pos rfl]
  simp

/-- A text that is escaped is read back, whatever stands behind it. -/
theorem quotation_of_escape (hescape : quote ≠ '\\') (hself : meant quote = quote)
    {v after : List Char} (hs : s.cursor.ahead = quote :: (escape quote v ++ quote :: after)) :
    ∃ t, t.cursor.ahead = after ∧ quotation s =
      .done (String.ofList v, String.ofList (quote :: (escape quote v ++ [quote]))) t := by
  have hdone := quotation_of_unquoted hescape (unquoted_escape v) hs
  rw [decode_escape hself] at hdone
  refine ⟨_, ?_, hdone⟩
  have hsplit : s.cursor.ahead = (quote :: (escape quote v ++ [quote])) ++ after := by
    rw [hs, List.cons_append, List.append_assoc, List.singleton_append]
  have hlength : (escape quote v).length + 2 = (quote :: (escape quote v ++ [quote])).length := by
    simp
  rw [hlength]
  exact ahead_advance_of_append hsplit

/-- Where a quote closes the text, the reading ends behind the first one that does. -/
theorem quotation_of_closes (hescape : quote ≠ '\\') {body : List Char}
    (hs : s.cursor.ahead = quote :: text) (h : Closes quote text body) :
    ∃ first, ClosesFirst quote text first ∧ quotation s =
      .done (String.ofList (decode first), String.ofList (quote :: (first ++ [quote])))
        { s with cursor := s.cursor.advance (first.length + 2) } := by
  obtain ⟨first, hfirst, after, rfl⟩ := exists_unquoted h
  refine ⟨first, closesFirst_of_unquoted hescape hfirst (List.prefix_append _ _), ?_⟩
  rw [List.append_assoc, List.singleton_append] at hs
  exact quotation_of_unquoted hescape hfirst hs

theorem quotation_of_open (hs : s.cursor.ahead = quote :: text)
    (h : (Quotation.scan quote text).closed = false) :
    quotation s =
      .failed ⟨.openQuote quote (String.ofList (decode text)), s.cursor.text.length⟩ := by
  obtain ⟨hvalue, hraw⟩ := scan_open h
  have hindex : (s.cursor.advance (text.length + 1)).index = s.cursor.text.length := by
    rw [Cursor.index_advance, hs, List.length_cons, Nat.min_self, Cursor.text, hs]
    simp [Cursor.index]
  rw [quotation_eq hs, hvalue, hraw, h, hindex]
  rfl

/-- A quoted text is read exactly if a quote closes it, up to the first one that does; its value is
what stands between the quotes with the escapes resolved. Otherwise the error is at the end of the
source and tells what was read. A text that is escaped is read back from between quotes, whatever
comes after them. -/
theorem quotation_classified (s : State) (quote : Char) (hquote : quote = '"' ∨ quote = '\'')
    (text : List Char) (hs : s.cursor.ahead = quote :: text) :
    ((∃ a t, quotation s = .done a t) ↔ ∃ body, Closes quote text body) ∧
    (∀ value raw t, quotation s = .done (value, raw) t ↔
      ∃ body, ClosesFirst quote text body ∧ value = String.ofList (decode body) ∧
        raw = String.ofList (quote :: (body ++ [quote])) ∧
        t = { s with cursor := s.cursor.advance (body.length + 2) }) ∧
    ((∃ e, quotation s = .failed e) ↔ ¬ ∃ body, Closes quote text body) ∧
    (∀ e, quotation s = .failed e → e.cause.kind = .unclosed ∧
      e.cause.description = "Unclosed quote after \"" ++ String.ofList (decode text) ++ "\"" ∧
      e.index = s.cursor.text.length) ∧
    (∀ v after, text = escape quote v ++ quote :: after →
      ∃ t, t.cursor.ahead = after ∧ quotation s =
        .done (String.ofList v, String.ofList (quote :: (escape quote v ++ [quote]))) t) := by
  have hescape : quote ≠ '\\' := by
    rcases hquote with rfl | rfl <;> decide
  have hself : meant quote = quote := by
    rcases hquote with rfl | rfl <;> rfl
  have hescaped : ∀ v after, text = escape quote v ++ quote :: after →
      ∃ t, t.cursor.ahead = after ∧ quotation s =
        .done (String.ofList v, String.ofList (quote :: (escape quote v ++ [quote]))) t := by
    rintro v after rfl
    exact quotation_of_escape hescape hself hs
  cases hclosed : (Quotation.scan quote text).closed with
  | true =>
    have hcloses := (closed_iff hescape).mp hclosed
    obtain ⟨body, hfirst, hdone⟩ := quotation_of_closes hescape hs hcloses.choose_spec
    rw [hdone] at hescaped ⊢
    refine ⟨⟨fun _ => hcloses, fun _ => ⟨_, _, rfl⟩⟩, fun value raw t => ⟨?_, ?_⟩,
      ⟨by rintro ⟨e, ⟨⟩⟩, fun h => absurd hcloses h⟩, by rintro e ⟨⟩, hescaped⟩
    · rintro ⟨⟩
      exact ⟨body, hfirst, rfl, rfl, rfl⟩
    · rintro ⟨other, hother, rfl, rfl, rfl⟩
      rw [hfirst.unique hother]
  | false =>
    have hnone : ¬ ∃ body, Closes quote text body := by
      rw [← closed_iff hescape, hclosed]
      exact Bool.false_ne_true
    have hfailed := quotation_of_open hs hclosed
    rw [hfailed] at hescaped ⊢
    refine ⟨⟨by rintro ⟨a, t, ⟨⟩⟩, fun h => absurd h hnone⟩, fun value raw t => ⟨?_, ?_⟩,
      ⟨fun _ => hnone, fun _ => ⟨_, rfl⟩⟩, ?_, hescaped⟩
    · rintro ⟨⟩
    · rintro ⟨body, hbody, -⟩
      exact absurd ⟨body, hbody.closes⟩ hnone
    · rintro e ⟨⟩
      exact ⟨rfl, rfl, rfl⟩

/-- An escaped backslash in front of the closing quote leaves it one; behind a single backslash it
is none, and the text stays open. Between double quotes a single one closes nothing, and the letters
that stand for control characters are resolved. -/
theorem quotation_classified_backslashes :
    (∃ t, t.cursor.ahead = " + 'b'".toList ∧ quotation (.start "'it\\'s \\\\' + 'b'") =
      .done ("it's \\", "'it\\'s \\\\'") t) ∧
    (∃ e, quotation (.start "'abc\\'") = .failed e ∧
      e.cause.description = "Unclosed quote after \"abc'\"" ∧ e.index = 6) ∧
    ∃ t, quotation (.start "\"'\\n\\r\\t\\b\\f\\v\\z\";") =
      .done ("'\n\r\t\x08\x0c\x0bz", "\"'\\n\\r\\t\\b\\f\\v\\z\"") t ∧
        t.cursor.index = 17 := by
  refine ⟨?_, ?_, ?_⟩
  · have hraw : String.ofList ('\'' :: (escape '\'' "it's \\".toList ++ ['\''])) =
        "'it\\'s \\\\'" := by decide +kernel
    have hclosed := quotation_classified (.start "'it\\'s \\\\' + 'b'") '\'' (.inr rfl)
      "it\\'s \\\\' + 'b'".toList rfl
    obtain ⟨t, ht, hdone⟩ := hclosed.2.2.2.2 "it's \\".toList " + 'b'".toList (by decide +kernel)
    rw [hraw, String.ofList_toList] at hdone
    exact ⟨t, ht, hdone⟩
  · have hopen := quotation_classified (.start "'abc\\'") '\'' (.inr rfl) "abc\\'".toList rfl
    have hfailed := quotation_of_open (s := .start "'abc\\'") rfl (by decide +kernel)
    obtain ⟨-, hdescription, hindex⟩ := hopen.2.2.2.1 _ hfailed
    have hpartial : "Unclosed quote after \"" ++ String.ofList (decode "abc\\'".toList) ++ "\"" =
        "Unclosed quote after \"abc'\"" := by decide +kernel
    exact ⟨_, hfailed, hdescription.trans hpartial, hindex⟩
  · let body := "'\\n\\r\\t\\b\\f\\v\\z".toList
    have hbody : Unquoted '"' body :=
      .plain (by decide) (by decide) <| .escaped <| .escaped <| .escaped <| .escaped <| .escaped <|
        .escaped <| .escaped .nil
    have hclasses := quotation_classified (.start "\"'\\n\\r\\t\\b\\f\\v\\z\";") '"' (.inl rfl)
      (body ++ ['"', ';']) rfl
    have hfirst : ClosesFirst '"' (body ++ ['"', ';']) body :=
      closesFirst_of_unquoted (by decide) hbody ⟨[';'], rfl⟩
    have hdone := (hclasses.2.1 _ _ _).mpr ⟨body, hfirst, rfl, rfl, rfl⟩
    have hvalue : String.ofList (decode body) = "'\n\r\t\x08\x0c\x0bz" := by decide +kernel
    have hraw : String.ofList ('"' :: (body ++ ['"'])) = "\"'\\n\\r\\t\\b\\f\\v\\z\"" := by
      decide +kernel
    rw [hvalue, hraw] at hdone
    exact ⟨_, hdone, by decide +kernel⟩

end

end ExprTree.Quotations
