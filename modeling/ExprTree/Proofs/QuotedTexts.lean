import ExprTree.Parse.Lexeme

/-!
What quoted texts mean. `meant` says of a character what a backslash in front of it makes of it,
`decode` resolves the escapes of a whole text by it, and `IsText` says which value a text between
quotes is a spelling of. These are written down apart from `Quotation.scan`; that it reads quoted
texts by them is proved here.
-/

namespace ExprTree.QuotedText

/-- The letters that stand for control characters after a backslash, with the codes of these: line
feed, carriage return, tabulator, backspace, form feed and vertical tabulator. -/
def controls : List (Char × Nat) :=
  [('n', 10), ('r', 13), ('t', 9), ('b', 8), ('f', 12), ('v', 11)]

/-- What a backslash makes of the character after it: a control character of the letters that have
one, and of any other character the character itself. -/
def meant (c : Char) : Char :=
  match controls.lookup c with
  | some code => .ofNat code
  | none => c

/-- A text in which a quote comes only after a backslash. Escapes are taken from left to right. -/
inductive Unquoted (quote : Char) : List Char → Prop
  | nil : Unquoted quote []
  | plain {c : Char} {rest : List Char} : c ≠ quote → c ≠ '\\' → Unquoted quote rest →
    Unquoted quote (c :: rest)
  | escaped {c : Char} {rest : List Char} : Unquoted quote rest → Unquoted quote ('\\' :: c :: rest)

/-- A text with its escapes resolved. A backslash at its very end means nothing. -/
def decode : List Char → List Char
  | [] => []
  | ['\\'] => []
  | '\\' :: c :: rest => meant c :: decode rest
  | c :: rest => c :: decode rest

/-- What a text between quotes, spelled with them, means. -/
def IsText (quote : Char) (value raw : List Char) : Prop :=
  ∃ body, raw = quote :: (body ++ [quote]) ∧ Unquoted quote body ∧ value = decode body

section

variable {quote : Char} {body cs : List Char}

theorem decode_cons {c : Char} (hc : c ≠ '\\') (rest : List Char) :
    decode (c :: rest) = c :: decode rest := by
  rw [decode.eq_4]
  · rintro rfl
    exact absurd rfl hc
  · rintro c rest rfl
    exact absurd rfl hc

theorem meant_of_notMem {c : Char} (hc : c ∉ controls.map (·.1)) : meant c = c := by
  have hnone : controls.lookup c = none := by
    rw [List.lookup_eq_none_iff]
    intro p hp
    rw [bne_iff_ne]
    rintro rfl
    exact hc (List.mem_map_of_mem hp)
  rw [meant, hnone]

/-- The scanner takes escapes for what they mean. -/
theorem unescape_eq (c : Char) : Quotation.unescape c = meant c := by
  unfold Quotation.unescape
  split
  case h_7 => exact (meant_of_notMem (by simp_all [controls])).symm
  all_goals rfl

/-- A quoted text that is closed ends with its first quote that is not escaped. -/
theorem isText_scan (h : (Quotation.scan quote cs).closed = true) :
    IsText quote (Quotation.scan quote cs).value (quote :: (Quotation.scan quote cs).raw) := by
  unfold IsText
  simp only [List.cons.injEq, true_and]
  fun_induction Quotation.scan quote cs with
  | case1 => cases h
  | case2 rest => exact ⟨[], rfl, .nil, rfl⟩
  | case3 => cases h
  | case4 c rest q hquote ih =>
    obtain ⟨body, hraw, hbody, hvalue⟩ := ih h
    exact ⟨'\\' :: c :: body, by rw [hraw]; rfl, .escaped hbody, by rw [hvalue, unescape_eq]; rfl⟩
  | case5 c rest hquote hescape q ih =>
    obtain ⟨body, hraw, hbody, hvalue⟩ := ih h
    refine ⟨c :: body, by rw [hraw]; rfl, .plain hquote hescape hbody, ?_⟩
    rw [hvalue, decode_cons hescape]

/-- A text is read up to its first quote that closes it. -/
theorem scan_unquoted (hescape : quote ≠ '\\') (h : Unquoted quote body) (after : List Char) :
    Quotation.scan quote (body ++ quote :: after) = ⟨decode body, body ++ [quote], true⟩ := by
  induction h with
  | nil =>
    rw [List.nil_append, Quotation.scan.eq_def]
    simp only [if_true]
    rfl
  | @plain c rest hquote hc _ ih =>
    rw [List.cons_append, Quotation.scan.eq_def, decode_cons hc]
    simp only [hquote, hc, if_false, ih]
    rfl
  | @escaped c rest _ ih =>
    rw [List.cons_append, List.cons_append, Quotation.scan.eq_def]
    simp only [hescape.symm, if_false, if_true, ih, unescape_eq]
    rfl

/-- All letters that have a control character, a quote, a backslash and a letter without one. -/
example : Quotation.scan '"' "\\n\\r\\t\\b\\f\\v\\\"\\\\\\z\";".toList =
    ⟨[10, 13, 9, 8, 12, 11, 34, 92, 122].map .ofNat,
      "\\n\\r\\t\\b\\f\\v\\\"\\\\\\z\"".toList, true⟩ := by decide +kernel

/-- Without a closing quote all of the text is taken and resolved. -/
theorem scan_open (h : (Quotation.scan quote cs).closed = false) :
    (Quotation.scan quote cs).value = decode cs ∧ (Quotation.scan quote cs).raw = cs := by
  fun_induction Quotation.scan quote cs with
  | case1 => exact ⟨rfl, rfl⟩
  | case2 rest => cases h
  | case3 => exact ⟨rfl, rfl⟩
  | case4 c rest q hquote ih =>
    obtain ⟨hvalue, hraw⟩ := ih h
    exact ⟨by rw [hvalue, unescape_eq]; rfl, by rw [hraw]⟩
  | case5 c rest hquote hescape q ih =>
    obtain ⟨hvalue, hraw⟩ := ih h
    exact ⟨by rw [hvalue, decode_cons hescape], by rw [hraw]⟩

end

end ExprTree.QuotedText
