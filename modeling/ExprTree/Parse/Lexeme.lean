import ExprTree.Grammar.Basic
import ExprTree.Number.Numeral
import ExprTree.Parse.Basic

/-!
The smallest pieces of a source text: names, quoted texts and numerals. A quoted text is taken
apart by `Quotation.scan`, which looks at the characters alone; a numeral is munched first, and
then what it was decides between a number, a name that begins with digits, and an error.
-/

namespace ExprTree

/-- What an opening quote leads to. -/
structure Quotation where
  /-- The text that is meant, the escapes resolved. -/
  value : List Char
  /-- The characters after the opening quote up to and including the closing one. -/
  raw : List Char
  closed : Bool
deriving DecidableEq, Repr

namespace Quotation

/-- The character that a backslash and a letter stand for; most stand for themselves. -/
def unescape : Char → Char
  | 'n' => '\n'
  | 'r' => '\r'
  | 't' => '\t'
  | 'b' => '\x08'
  | 'f' => '\x0c'
  | 'v' => '\x0b'
  | c => c

/-- Reads on after an opening quote. Without a closing one everything is taken, and a backslash at
the very end means nothing. -/
def scan (quote : Char) : List Char → Quotation
  | [] => ⟨[], [], false⟩
  | c :: rest =>
    if c = quote then ⟨[], [c], true⟩
    else if c = '\\' then
      match rest with
      | [] => ⟨[], [c], false⟩
      | e :: rest =>
        let q := scan quote rest
        ⟨unescape e :: q.value, c :: e :: q.raw, q.closed⟩
    else
      let q := scan quote rest
      ⟨c :: q.value, c :: q.raw, q.closed⟩

end Quotation

namespace Parse

/-- A name: a character that may begin one, and all the characters of names after it. -/
def name (l : Letters) : Parse String := do
  match ← peek with
  | none => fail .noNameAtEnd
  | some c =>
    if l.isStart c then return String.ofList (← takeWhile l.isPart)
    else fail (.noName c)

/-- A quoted text as its value and its spelling. -/
def quotation : Parse (String × String) := do
  let start ← here
  match start.ahead with
  | [] => fail .noNameAtEnd
  | quote :: rest =>
    let q := Quotation.scan quote rest
    advance (q.raw.length + 1)
    if q.closed then return (String.ofList q.value, String.ofList (quote :: q.raw))
    else fail (.openQuote quote (String.ofList q.value))

/-- The name that a numeral begins, if all its characters are characters of names. -/
def nameFromNumeral (l : Letters) (numeral : List Char) (cause : Cause) : Parse Node := do
  if numeral.all l.isPart then
    let rest ← name l
    return .plain (String.ofList numeral ++ rest)
  else fail cause

/-- The number of a numeral that is not the beginning of a name. -/
def numberOf (n : Numeral) (start : Nat) : Parse Node :=
  if n.isComplete then return .literal (.number n.value) (String.ofList n.text)
  else failAt start (.noDigit (String.ofList n.text))

/-- A numeral, or a name that begins like one: a name may go on after the digits, or after an
exponent's marker without digits. In a branch of a conditional a colon ends a numeral. -/
def numeral (l : Letters) : Parse Node := do
  let start ← here
  let (n, rest) := Numeral.munch start.ahead
  let text := String.ofList n.text
  advance n.text.length
  if n.lacksExponent then nameFromNumeral l n.text (.noExponent text rest.head?)
  else
    match rest.head? with
    | none => numberOf n start.index
    | some c =>
      if c = ':' ∧ (← inBranch) then numberOf n start.index
      else if l.isStart c then nameFromNumeral l n.text (.nameAfterNumeral text c)
      else if c = '.' then fail .secondPeriod
      else numberOf n start.index

end Parse

end ExprTree
