import ExprTree.Parse.Primary

/-!
Operands: numerals, quoted texts, arrays, primaries, and operators in front of an operand. A word
can be an operator itself. A named argument stands with all those after it for one node.
-/

namespace ExprTree.Parse

/-- One more value for a key. -/
def addValue (keys : Keyed (Entry Node)) (key : String) (value : Node) : Keyed (Entry Node) :=
  keys.alter key fun
    | none => .single value
    | some entry => entry.push value

/-- The named arguments after those read so far. A comma and blanks may come first, and they are
passed also if no named argument follows. -/
def pairs (g : Grammar) (rules : Rules) (keys : Keyed (Entry Node)) :
    Parse (Keyed (Entry Node)) := do
  skipBlanks
  let _ ← eat ','
  skipBlanks
  let next ← here
  if next.peek?.any g.letters.isStart then
    match ← rules .primary with
    | .pair key value => rules (.pairs (addValue keys key value))
    | .node _ =>
      moveTo next
      return keys
  else return keys

/-- An operator with the operand that has to follow it. -/
def applyUnary (rules : Rules) (operator : String) : Parse Node := do
  return .unary operator (← require (.noOperand operator) (rules .operand)) true

/-- A primary made into an operand: a word can be an operator, or a numeral
where digits are characters of names. -/
def ofTerm (g : Grammar) (rules : Rules) (t : Term) : Parse Node := do
  match t with
  | .pair key value => return .keyValues (← rules (.pairs (addValue [] key value)))
  | .node (.identifier w none property) =>
    if g.operators.isUnary w then applyUnary rules w
    else
      match Numeral.read? w.toList with
      | some x => return .literal (.number x) w
      | none => return .identifier w none property
  | .node n => return n

/-- A numeral. Where its first character may begin a name, what is no numeral is read again as a
primary. -/
def numeralOperand (g : Grammar) (rules : Rules) (first : Char) : Parse Node :=
  if g.letters.isStart first then
    recover (numeral g.letters) (do ofTerm g rules (← rules .primary))
  else numeral g.letters

/-- A primary, joined with a name that is glued to it by `!`. -/
def primaryOperand (g : Grammar) (rules : Rules) : Parse Node := do
  match ← rules .primary with
  | .node n => ofTerm g rules (.node (← joinName g.letters n))
  | t => ofTerm g rules t

/-- An operator in front of an operand, the longest one that is there. -/
def leadingOperator (g : Grammar) (rules : Rules) : Parse (Option Node) := do
  let ahead := (← here).ahead
  match g.operators.unaryAt? (ahead.take g.operators.longestUnary) with
  | none => return none
  | some operator =>
    advance operator.length
    return some (← applyUnary rules operator)

/-- One operand of a binary expression, if one begins here. -/
def operand (g : Grammar) (rules : Rules) : Parse (Option Node) := do
  skipBlanks
  match ← peek with
  | none => return none
  | some c =>
    if c.isDigit || c == '.' then return some (← numeralOperand g rules c)
    else if c = '\'' then return some (← joinableText g.letters)
    else if c = '"' then
      let (value, raw) ← quotation
      return some (.literal (.string value) raw)
    else if g.letters.isStart c || c == '(' then return some (← primaryOperand g rules)
    else if c = '[' then
      advance 1
      return some (.array (← rules (.items .square)))
    else leadingOperator g rules

end ExprTree.Parse
