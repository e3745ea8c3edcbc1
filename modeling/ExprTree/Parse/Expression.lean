import ExprTree.Parse.Operand

/-!
Expressions: operands with binary operators between them, and conditionals. Where `?` is a
character of names, a conditional without blanks reads as one name at first, and is taken apart
again.
-/

namespace ExprTree.Parse

/-- The longest binary operator after the blanks ahead, and its precedence. The blanks are passed
also if there is none. -/
def binaryOperator (g : Grammar) : Parse (Option (String × Int)) := do
  skipBlanks
  let ahead := (← here).ahead
  match g.operators.binaryAt? (ahead.take g.operators.longestBinary) with
  | none => return none
  | some (operator, precedence) =>
    advance operator.length
    return some (operator, precedence)

/-- The operators and operands after the first two operands. An operator whose precedence is not
positive ends the expression, and is passed. -/
def chain (g : Grammar) (rules : Rules) (stack : OperatorStack) : Parse (Option Node) := do
  match ← binaryOperator g with
  | none => return stack.finish
  | some (operator, precedence) =>
    if precedence ≤ 0 then return stack.finish
    else
      let reduced := stack.reduceFor precedence
      let right ← require (.noOperand operator) (rules .operand)
      rules (.chain (reduced.push operator precedence right))

/-- What comes before and after the last occurrence of a character. -/
def splitAtLast (x : Char) : List Char → Option (List Char × List Char)
  | [] => none
  | c :: cs =>
    match splitAtLast x cs with
    | some (before, after) => some (c :: before, after)
    | none => if c = x then some ([], cs) else none

/-- The test of a conditional that was read as one name: what stands before the last `?`. With a
colon after it, the last character apart, the name is left whole. -/
def gluedTest? (name : List Char) : Option (List Char) :=
  match splitAtLast '?' name with
  | none => none
  | some (test, after) => if ('?' :: after).dropLast.contains ':' then none else some test

/-- Goes back to the `?` inside a name that was read from `start`, and leaves the part before it.
A colon at the end of the name may belong to it; it is taken for the colon of a conditional only
if an expression follows. -/
def splitGlued (rules : Rules) (start : Cursor) (left : Node) : Parse Node := do
  let name := (left.name?.getD "").toList
  match gluedTest? name with
  | none => return left
  | some test =>
    let alternateFollows ← (do
      if name.getLast? = some ':' then return (← lookAhead (rules .expression)).join.isSome
      else return true)
    if alternateFollows then
      moveTo (start.advance test.length)
      return .plain (String.ofList test)
    else return left

/-- Whether an operator is the middle of a word: its first character and the one after it are
characters of names, and it is glued to a name in front of it. -/
def isInsideWord (g : Grammar) (left : Node) (isolated : Bool) (operator : String)
    (next : Option Char) : Bool :=
  left.name?.isSome && operator.toList.head?.any g.letters.isPart && next.any g.letters.isPart &&
    !isolated

/-- Operands with binary operators between them. -/
def binary (g : Grammar) (rules : Rules) : Parse (Option Node) := do
  skipBlanks
  let start ← here
  match ← rules .operand with
  | none => return none
  | some left =>
    let isolated := (← here).previous?.any isBlank
    match ← binaryOperator g with
    | none => return some (← splitGlued rules start left)
    | some (operator, precedence) =>
      if isInsideWord g left isolated operator (← peek) then
        let rest ← name g.letters
        return some (.plain (left.name?.getD "" ++ operator ++ rest))
      else
        let right ← require (.noOperand operator) (rules .operand)
        rules (.chain (.start left operator precedence right))

/-- An expression: a binary one, or a conditional that has it as its test. -/
def expression (g : Grammar) (rules : Rules) : Parse (Option Node) := do
  match ← binary g rules with
  | none => return none
  | some test =>
    skipBlanks
    if ← eat '?' then
      setInBranch true
      let consequent ← require .noExpression (rules .expression)
      skipBlanks
      expect ':' .noColon
      let alternate ← require .noExpression (rules .expression)
      setInBranch false
      return some (.conditional test consequent alternate)
    else return some test

end ExprTree.Parse
