import ExprTree.Proofs.Ends
import ExprTree.Proofs.Steps

/-!
The pieces of a source text that ask no rule. Each is read in one of the ways that are listed for it
here, or there is an error in it that is not about a missing item; it always comes to an end.
-/

namespace ExprTree.Lexemes

open Parse Outcome

/-- An error that is not about a missing item. -/
def Minor (e : ParseError) : Prop :=
  e.cause ≠ .noItem

/-- What an opening quote leads to, if the quote is closed. -/
inductive QuotationBy (s : State) : String × String → State → Prop
  | closed {quote : Char} {rest : List Char} (hahead : s.cursor.ahead = quote :: rest)
      (hclosed : (Quotation.scan quote rest).closed = true) :
      QuotationBy s (String.ofList (Quotation.scan quote rest).value,
          String.ofList (quote :: (Quotation.scan quote rest).raw))
        { s with cursor := s.cursor.advance ((Quotation.scan quote rest).raw.length + 1) }

/-- The ways to a numeral: a number, or a name that begins with its characters. -/
inductive NumeralBy (l : Letters) (s : State) : Node → State → Prop
  | number {n : Numeral} (hn : n = (Numeral.munch s.cursor.ahead).1)
      (hcomplete : n.isComplete = true) :
      NumeralBy l s (.literal (.number n.value) (String.ofList n.text))
        { s with cursor := s.cursor.advance n.text.length }
  | name {n : Numeral} {w : String} {t : State} (hn : n = (Numeral.munch s.cursor.ahead).1)
      (hall : n.text.all l.isPart = true)
      (hname : name l { s with cursor := s.cursor.advance n.text.length } = .done w t) :
      NumeralBy l s (.plain (String.ofList n.text ++ w)) t

/-- What becomes of a node with a `!` after it. -/
inductive JoinBy (l : Letters) (s : State) : Node → Node → State → Prop
  | alone (n : Node) : JoinBy l s n n s
  | joined {w suffix : String} {property : Option Node} {t : State}
      (hfollows : joinFollows l s.cursor = true)
      (hname : name l { s with cursor := s.cursor.advance 1 } = .done suffix t) :
      JoinBy l s (.identifier w none property)
        (.identifier (w ++ "!" ++ suffix) (some (.plain w)) (some (.plain suffix))) t

/-- The ways to a text in single quotes, alone or with a name after it. -/
inductive TextBy (l : Letters) (s : State) : Node → State → Prop
  | alone {value raw : String} {t : State} (htext : quotation s = .done (value, raw) t) :
      TextBy l s (.literal (.string value) raw) t
  | joined {value raw suffix : String} {t u : State} (htext : quotation s = .done (value, raw) t)
      (hfollows : joinFollows l t.cursor = true)
      (hname : name l { t with cursor := t.cursor.advance 1 } = .done suffix u) :
      TextBy l s (.identifier (raw ++ "!" ++ suffix) (some (.plain value)) (some (.plain suffix))) u

/-- Whether an operator stands behind the blanks. -/
inductive OperatorBy (g : Grammar) (s : State) : Option (String × Int) → State → Prop
  | nothing (hnone : g.operators.binaryAt?
        (s.cursor.skipBlanks.ahead.take g.operators.longestBinary) = none) :
      OperatorBy g s none { s with cursor := s.cursor.skipBlanks }
  | operator {operator : String} {precedence : Int} (hop : g.operators.binaryAt?
        (s.cursor.skipBlanks.ahead.take g.operators.longestBinary) = some (operator, precedence)) :
      OperatorBy g s (some (operator, precedence))
        { s with cursor := s.cursor.skipBlanks.advance operator.length }

section

variable {l : Letters} {s t : State}

theorem name_ends (l : Letters) (s : State) :
    (name l s).Ends (fun w t => ∃ c, s.cursor.peek? = some c ∧ l.isStart c = true ∧
        w = String.ofList (s.cursor.ahead.takeWhile l.isPart) ∧
        t = { s with cursor := s.cursor.advance (s.cursor.ahead.takeWhile l.isPart).length })
      Minor False := by
  unfold name
  rw [ends_bind, ends_peek]
  cases hc : s.cursor.peek? with
  | none => rintro ⟨⟩
  | some c =>
    simp only [ends_ite, ends_bind, ends_takeWhile, ends_fail]
    split
    · rename_i hstart
      exact ⟨c, rfl, hstart, rfl, rfl⟩
    · rintro ⟨⟩

theorem name_cases {w : String} (h : name l s = .done w t) :
    ∃ c, s.cursor.peek? = some c ∧ l.isStart c = true ∧
      w = String.ofList (s.cursor.ahead.takeWhile l.isPart) ∧
      t = { s with cursor := s.cursor.advance (s.cursor.ahead.takeWhile l.isPart).length } :=
  (name_ends l s).of_done h

theorem quotation_ends (s : State) : (quotation s).Ends (QuotationBy s) Minor False := by
  unfold quotation
  rw [ends_bind, ends_here]
  cases hahead : s.cursor.ahead with
  | nil => rintro ⟨⟩
  | cons quote rest =>
    simp only [ends_bind, ends_advance, ends_ite, ends_pure, ends_fail]
    split
    · rename_i hclosed
      exact .closed hahead hclosed
    · rintro ⟨⟩

theorem numeral_ends (l : Letters) (s : State) :
    (numeral l s).Ends (NumeralBy l s) Minor False := by
  have hname : ∀ cause : Cause, cause ≠ .noItem →
      (nameFromNumeral l (Numeral.munch s.cursor.ahead).1.text cause
        { s with cursor := s.cursor.advance (Numeral.munch s.cursor.ahead).1.text.length }).Ends
        (NumeralBy l s) Minor False := by
    intro cause hcause
    unfold nameFromNumeral
    simp only [ends_ite, ends_bind, ends_pure, ends_fail]
    split
    · rename_i hall
      exact (name_ends l _).self.imp fun w t hname => .name rfl hall hname
    · exact hcause
  have hnumber : (numberOf (Numeral.munch s.cursor.ahead).1 s.cursor.index
      { s with cursor := s.cursor.advance (Numeral.munch s.cursor.ahead).1.text.length }).Ends
      (NumeralBy l s) Minor False := by
    unfold numberOf
    simp only [ends_ite, ends_pure, ends_failAt]
    split
    · rename_i hcomplete
      exact .number rfl hcomplete
    · rintro ⟨⟩
  unfold numeral
  simp only [ends_bind, ends_here, ends_advance, ends_ite]
  split
  · exact hname _ (by rintro ⟨⟩)
  · cases (Numeral.munch s.cursor.ahead).2.head? with
    | none => exact hnumber
    | some c =>
      simp only [ends_bind, ends_inBranch, ends_ite, ends_fail]
      split
      · exact hnumber
      · split
        · exact hname _ (by rintro ⟨⟩)
        · split
          · rintro ⟨⟩
          · exact hnumber

theorem peek_of_joinFollows {c : Cursor} (h : joinFollows l c = true) : c.peek? = some '!' := by
  simp only [joinFollows, Bool.and_eq_true, beq_iff_eq] at h
  exact h.1.2

theorem joinName_ends (l : Letters) (n : Node) (s : State) :
    (joinName l n s).Ends (JoinBy l s n) Minor False := by
  unfold joinName
  simp only [ends_bind, ends_here]
  cases n with
  | identifier w object property =>
    cases object with
    | some object => exact .alone _
    | none =>
      cases hfollows : joinFollows l s.cursor with
      | false => exact .alone _
      | true =>
        simp only [join, ends_bind, ends_advance, ends_pure]
        exact (name_ends l _).self.imp fun suffix t hname => .joined hfollows hname
  | _ => exact .alone _

theorem joinableText_ends (l : Letters) (s : State) :
    (joinableText l s).Ends (TextBy l s) Minor False := by
  unfold joinableText
  rw [ends_bind]
  refine (quotation_ends s).self.imp ?_
  rintro ⟨value, raw⟩ t htext
  simp only [ends_bind, ends_here, ends_ite, ends_pure]
  split
  · rename_i hfollows
    simp only [join, ends_bind, ends_advance, ends_pure]
    exact (name_ends l _).self.imp fun suffix u hname => .joined htext hfollows hname
  · exact .alone htext

theorem binaryOperator_ends (g : Grammar) (s : State) :
    (binaryOperator g s).Ends (OperatorBy g s) Minor False := by
  unfold binaryOperator
  simp only [ends_bind, ends_skipBlanks, ends_here]
  cases hop : g.operators.binaryAt?
      (s.cursor.skipBlanks.ahead.take g.operators.longestBinary) with
  | none => exact .nothing hop
  | some o => exact .operator hop

end

end ExprTree.Lexemes
