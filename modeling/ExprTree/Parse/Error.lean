/-!
What can be wrong with a source text. A `Cause` says what was found or missed; its kind, its
wording and its hint follow from it. A `Diagnostic` is the finished message with its place, which
can also be made without a parse.
-/

namespace ExprTree

/-- The category of an error. -/
inductive ErrorKind where
  | unexpectedCharacter
  | expectedExpression
  | expectedColon
  | unclosed
  | malformedNumber
  | expectedComma
deriving DecidableEq, Repr

/-- The stable code of a category. -/
def ErrorKind.code : ErrorKind → String
  | unexpectedCharacter => "E_UNEXPECTED"
  | expectedExpression => "E_EXPECTED_EXPR"
  | expectedColon => "E_EXPECTED_COLON"
  | unclosed => "E_UNCLOSED"
  | malformedNumber => "E_MALFORMED_NUMBER"
  | expectedComma => "E_EXPECTED_COMMA"

/-- The brackets around a list of items. -/
inductive Bracket where
  | round
  | square
deriving DecidableEq, Repr

namespace Bracket

def opening : Bracket → Char
  | round => '('
  | square => '['

def closing : Bracket → Char
  | round => ')'
  | square => ']'

end Bracket

/-- What is wrong at a place of a source text. -/
inductive Cause where
  /-- No expression begins with the character. -/
  | strayCharacter (c : Char)
  /-- No name begins with the character where one has to. -/
  | noName (c : Char)
  | noNameAtEnd
  | noExpression
  | noOperand (operator : String)
  | noValue (name : String)
  | noColon
  | openQuote (quote : Char) (value : String)
  | openGroup
  | openSubscript
  | openList (bracket : Bracket)
  | noExponent (numeral : String) (next : Option Char)
  | nameAfterNumeral (numeral : String) (next : Char)
  | secondPeriod
  | noDigit (numeral : String)
  | noItem
deriving DecidableEq, Repr

namespace Cause

def kind : Cause → ErrorKind
  | strayCharacter _ | noName _ | noNameAtEnd => .unexpectedCharacter
  | noExpression | noOperand _ | noValue _ => .expectedExpression
  | noColon => .expectedColon
  | openQuote .. | openGroup | openSubscript | openList _ => .unclosed
  | noExponent .. | nameAfterNumeral .. | secondPeriod | noDigit _ => .malformedNumber
  | noItem => .expectedComma

def description : Cause → String
  | strayCharacter c => "Unexpected \"" ++ c.toString ++ "\""
  | noName c => "Unexpected " ++ c.toString
  | noNameAtEnd => "Unexpected end of expression"
  | noExpression => "Expected expression"
  | noOperand operator => "Expected expression after " ++ operator
  | noValue name => "Expected expression after " ++ name ++ "="
  | noColon => "Expected :"
  | openQuote _ value => "Unclosed quote after \"" ++ value ++ "\""
  | openGroup => "Unclosed ("
  | openSubscript => "Unclosed ["
  | openList bracket => "Unclosed " ++ bracket.opening.toString
  | noExponent numeral next =>
    "Expected exponent (" ++ numeral ++ (next.map Char.toString).getD "" ++ ")"
  | nameAfterNumeral numeral next =>
    "Variable names cannot start with a number (" ++ numeral ++ next.toString ++ ")"
  | secondPeriod => "Unexpected period"
  | noDigit numeral => "Expected number (" ++ numeral ++ ")"
  | noItem => "Expected comma"

/-- What would mend the error, where that is clear. -/
def help? : Cause → Option String
  | openQuote quote _ => some ("add a closing " ++ quote.toString ++ " to end the string")
  | openList bracket => some ("add a closing `" ++ bracket.closing.toString ++ "`")
  | _ => none

end Cause

/-- The first error of a source text, at the number of characters in front of it. -/
structure ParseError where
  cause : Cause
  index : Nat
deriving DecidableEq, Repr

/-- A message about a place in a source text. -/
structure Diagnostic where
  kind : ErrorKind
  /-- The message without its place. -/
  description : String
  index : Nat
  help? : Option String
deriving DecidableEq, Repr

def ParseError.diagnostic (e : ParseError) : Diagnostic :=
  ⟨e.cause.kind, e.cause.description, e.index, e.cause.help?⟩

/-- The message with its place. -/
def Diagnostic.message (d : Diagnostic) : String :=
  d.description ++ " at character " ++ toString d.index

end ExprTree
