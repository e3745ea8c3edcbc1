import ExprTree.Parse.Source

/-!
The rules on a bare index into the characters of a source. A place of the parser is two pieces of
the text and cannot be outside of it; here nothing but the program keeps the index inside, as where
the characters stand in an array. Every move is a `goTo`, every text that is taken out a `piece` or
a `cut` of a name at a byte, and each of them lands `outside` if its bounds are no bounds. The moves
and pieces that are cut short at the end of the text are written with the `min` that does so.

Names, quoted texts and numerals are read here one character after the other, and their spelling
is taken out of the text afterwards. A failure leaves the place where it happened, since what is
tried instead starts with the index and the mark found there.
-/

namespace ExprTree

/-- What changes while a source is read. -/
structure Spot where
  index : Nat
  inBranch : Bool
deriving DecidableEq, Repr

/-- How a step of a walk ends. -/
inductive Landing (α : Type) where
  | done (value : α) (spot : Spot)
  | failed (error : ParseError) (spot : Spot)
  /-- The rounds ran out. -/
  | unfinished
  /-- An index was beyond the end, or a piece had no proper bounds. -/
  | outside

/-- A step of a walk through a text. -/
def Walk (α : Type) := List Char → Spot → Landing α

namespace Walk

section

variable {α β : Type}

def pure (a : α) : Walk α :=
  fun _ w => .done a w

def bind (p : Walk α) (f : α → Walk β) : Walk β := fun text w =>
  match p text w with
  | .done a v => f a text v
  | .failed e v => .failed e v
  | .unfinished => .unfinished
  | .outside => .outside

instance : Monad Walk where
  pure := pure
  bind := bind

def endless : Walk α :=
  fun _ _ => .unfinished

def failAt (index : Nat) (cause : Cause) : Walk α :=
  fun _ w => .failed ⟨cause, index⟩ w

def fail (cause : Cause) : Walk α :=
  fun _ w => .failed ⟨cause, w.index⟩ w

def index : Walk Nat :=
  fun _ w => .done w.index w

/-- How many characters the whole text has. -/
def length : Walk Nat :=
  fun text w => .done text.length w

def inBranch : Walk Bool :=
  fun _ w => .done w.inBranch w

def setInBranch (b : Bool) : Walk Unit :=
  fun _ w => .done () { w with inBranch := b }

/-- Goes on from another index, which has to be one of the text. -/
def goTo (i : Nat) : Walk Unit := fun text w =>
  if i ≤ text.length then .done () { w with index := i } else .outside

/-- The characters from one index up to another one. -/
def piece (i j : Nat) : Walk (List Char) := fun text w =>
  if i ≤ j ∧ j ≤ text.length then .done ((text.take j).drop i) w else .outside

/-- What a name has before and after a byte, which has to be the first one of a character or the
end. -/
def cut (name : String) (byte : Nat) : Walk (String × String) := fun _ w =>
  if h : String.Pos.Raw.IsValid name ⟨byte⟩ then
    .done ((name.sliceTo ⟨⟨byte⟩, h⟩).copy, (name.sliceFrom ⟨⟨byte⟩, h⟩).copy) w
  else .outside

def peekAt (n : Nat) : Walk (Option Char) :=
  fun text w => .done text[w.index + n]? w

def peek : Walk (Option Char) :=
  peekAt 0

def previous : Walk (Option Char) :=
  fun text w => .done (if w.index = 0 then none else text[w.index - 1]?) w

/-- Passes the next character, if there is one. -/
def next : Walk (Option Char) := do
  match ← peek with
  | none => return none
  | some c =>
    goTo ((← index) + 1)
    return some c

/-- Passes the next character, whatever it is. -/
def pass : Walk Unit := do
  let _ ← next
  return ()

def eat (c : Char) : Walk Bool := do
  if (← peek) = some c then
    goTo ((← index) + 1)
    return true
  else return false

/-- Passes `n` characters, or all if there are less. -/
def skip (n : Nat) : Walk Unit := do
  goTo (min ((← index) + n) (← length))

/-- Passes at most `n` characters, as long as they satisfy a test. -/
def skipAtMost (p : Char → Bool) : Nat → Walk Unit
  | 0 => return ()
  | n + 1 => do
    if (← peek).any p then
      goTo ((← index) + 1)
      skipAtMost p n
    else return ()

/-- Passes the characters that satisfy a test. -/
def skipWhile (p : Char → Bool) : Walk Unit := do
  skipAtMost p (← length)

def skipBlanks : Walk Unit :=
  skipWhile isBlank

/-- The next `n` characters, or all if there are less. -/
def lookahead (n : Nat) : Walk (List Char) := do
  let last := min ((← index) + n) (← length)
  piece (min (← index) last) last

/-- The text from an index up to here. -/
def sliceFrom (start : Nat) : Walk (List Char) := do
  piece (min start (← index)) (← index)

/-- Goes on from an index that was reached before, or that was computed from one. -/
def goBack (i : Nat) : Walk Unit := do
  goTo (min i (← length))

def expect (c : Char) (cause : Cause) : Walk Unit := do
  if ← eat c then return () else fail cause

def require (cause : Cause) (p : Walk (Option α)) : Walk α := do
  match ← p with
  | some a => return a
  | none => fail cause

/-- A step with its failure as a value. The walk goes on where the step ended either way. -/
def attempt (p : Walk α) : Walk (Except ParseError α) := fun text w =>
  match p text w with
  | .done a v => .done (.ok a) v
  | .failed e v => .done (.error e) v
  | .unfinished => .unfinished
  | .outside => .outside

end

def name (l : Letters) : Walk String := do
  let start ← index
  match ← peek with
  | none => fail .noNameAtEnd
  | some c =>
    if l.isStart c then
      pass
      skipWhile l.isPart
      return String.ofList (← sliceFrom start)
    else fail (.noName c)

/-- The text that is meant by a quotation up to its closing quote, after what was read already. A
quotation has fewer characters than the given number. -/
def quoted (quote : Char) : Nat → List Char → Walk (List Char)
  | 0, _ => endless
  | n + 1, value => do
    match ← next with
    | none => fail (.openQuote quote (String.ofList value))
    | some c =>
      if c = quote then return value
      else if c = '\\' then
        match ← next with
        | none => quoted quote n value
        | some e => quoted quote n (value ++ [Quotation.unescape e])
      else quoted quote n (value ++ [c])

def quotation : Walk (String × String) := do
  let start ← index
  match ← next with
  | none => fail .noNameAtEnd
  | some quote =>
    let value ← quoted quote ((← length) + 1) []
    return (String.ofList value, String.ofList (← sliceFrom start))

/-- Passes the point and the digits after it. -/
def munchFraction : Walk Unit := do
  if ← eat '.' then skipWhile Char.isDigit else return ()

def munchSign : Walk Unit := do
  if (← peek).any (fun s => s = '+' ∨ s = '-') then pass else return ()

/-- Passes an exponent, and says whether it has a marker but no digit. -/
def munchExponent : Walk Bool := do
  if (← peek).any (fun m => m = 'e' ∨ m = 'E') then
    pass
    munchSign
    skipWhile Char.isDigit
    return !(← previous).any Char.isDigit
  else return false

/-- Passes a numeral, and says whether its exponent has a marker but no digit. -/
def munch : Walk Bool := do
  skipWhile Char.isDigit
  munchFraction
  munchExponent

def nameFromNumeral (l : Letters) (numeral : List Char) (cause : Cause) : Walk Node := do
  if numeral.all l.isPart then
    let rest ← name l
    return .plain (String.ofList numeral ++ rest)
  else fail cause

def numberOf (numeral : List Char) (start : Nat) : Walk Node :=
  match Numeral.read? numeral with
  | some x => return .literal (.number x) (String.ofList numeral)
  | none => failAt start (.noDigit (String.ofList numeral))

def numeral (l : Letters) : Walk Node := do
  let start ← index
  let lacksExponent ← munch
  let text ← sliceFrom start
  let next ← peek
  if lacksExponent then nameFromNumeral l text (.noExponent (String.ofList text) next)
  else
    match next with
    | none => numberOf text start
    | some c =>
      if c = ':' ∧ (← inBranch) then numberOf text start
      else if l.isStart c then
        nameFromNumeral l text (.nameAfterNumeral (String.ofList text) c)
      else if c = '.' then fail .secondPeriod
      else numberOf text start

/-- A step for each rule. -/
abbrev Steps := (r : Rule) → Walk r.Answer

def word (g : Grammar) (steps : Steps) : Walk Term := do
  let w ← name g.letters
  if (← peek) = some '=' ∧ (← peekAt 1) ≠ some '=' then
    pass
    return .pair w (← require (.noValue w) (steps .expression))
  else return .node (g.wordNode w)

def group (steps : Steps) : Walk Node := do
  pass
  let n ← require .noExpression (steps .expression)
  skipBlanks
  expect ')' .openGroup
  return n

def primary (g : Grammar) (steps : Steps) : Walk Term := do
  let head ← (do
    if (← peek) = some '(' then return .node (← group steps) else word g steps)
  match head with
  | .pair w value => return .pair w value
  | .node n =>
    skipBlanks
    return .node (← steps (.links n))

def links (g : Grammar) (steps : Steps) (head : Node) : Walk Node := do
  let next ← peek
  if next = some '.' then
    pass
    skipBlanks
    let property ← name g.letters
    skipBlanks
    steps (.links (.member false head (.plain property)))
  else if next = some '[' then
    pass
    let property ← require .noExpression (steps .expression)
    skipBlanks
    expect ']' .openSubscript
    skipBlanks
    steps (.links (.member true head property))
  else if next = some '(' then
    pass
    let arguments ← steps (.items .round)
    skipBlanks
    steps (.links (.call head arguments))
  else return head

def items (steps : Steps) (bracket : Bracket) : Walk (List Node) := do
  skipBlanks
  match ← peek with
  | none => fail (.openList bracket)
  | some c =>
    if c = bracket.closing then
      pass
      return []
    else if c = ',' then
      pass
      steps (.items bracket)
    else
      match ← steps .expression with
      | none | some (.compound _) => fail .noItem
      | some n => return n :: (← steps (.items bracket))

def joinFollows (l : Letters) : Walk Bool := do
  return !(← previous).any isBlank && (← peek) == some '!' && (← peekAt 1).any l.isStart

def join (l : Letters) (raw base : String) : Walk Node := do
  pass
  let suffix ← name l
  return .identifier (raw ++ "!" ++ suffix) (some (.plain base)) (some (.plain suffix))

def joinName (l : Letters) (n : Node) : Walk Node := do
  match n, ← joinFollows l with
  | .identifier w none _, true => join l w w
  | _, _ => return n

def joinableText (l : Letters) : Walk Node := do
  let (value, raw) ← quotation
  if ← joinFollows l then join l raw value
  else return .literal (.string value) raw

def pairs (g : Grammar) (steps : Steps) (keys : Keyed (Entry Node)) :
    Walk (Keyed (Entry Node)) := do
  skipBlanks
  let _ ← eat ','
  skipBlanks
  if (← peek).any g.letters.isStart then
    let next ← index
    match ← steps .primary with
    | .pair key value => steps (.pairs (Parse.addValue keys key value))
    | .node _ =>
      goBack next
      return keys
  else return keys

def applyUnary (steps : Steps) (operator : String) : Walk Node := do
  return .unary operator (← require (.noOperand operator) (steps .operand)) true

def ofTerm (g : Grammar) (steps : Steps) (t : Term) : Walk Node := do
  match t with
  | .pair key value => return .keyValues (← steps (.pairs (Parse.addValue [] key value)))
  | .node (.identifier w none property) =>
    if g.operators.isUnary w then applyUnary steps w
    else
      match Numeral.read? w.toList with
      | some x => return .literal (.number x) w
      | none => return .identifier w none property
  | .node n => return n

def numeralOperand (g : Grammar) (steps : Steps) (first : Char) : Walk Node := do
  let start ← index
  match ← attempt (numeral g.letters) with
  | .ok n => return n
  | .error e =>
    if g.letters.isStart first then
      goBack start
      ofTerm g steps (← steps .primary)
    else failAt e.index e.cause

def primaryOperand (g : Grammar) (steps : Steps) : Walk Node := do
  match ← steps .primary with
  | .node n => ofTerm g steps (.node (← joinName g.letters n))
  | t => ofTerm g steps t

def leadingOperator (g : Grammar) (steps : Steps) : Walk (Option Node) := do
  match g.operators.unaryAt? (← lookahead g.operators.longestUnary) with
  | none => return none
  | some operator =>
    skip operator.length
    return some (← applyUnary steps operator)

def operand (g : Grammar) (steps : Steps) : Walk (Option Node) := do
  skipBlanks
  match ← peek with
  | none => return none
  | some c =>
    if c.isDigit || c == '.' then return some (← numeralOperand g steps c)
    else if c = '\'' then return some (← joinableText g.letters)
    else if c = '"' then
      let (value, raw) ← quotation
      return some (.literal (.string value) raw)
    else if g.letters.isStart c || c == '(' then return some (← primaryOperand g steps)
    else if c = '[' then
      pass
      return some (.array (← steps (.items .square)))
    else leadingOperator g steps

def binaryOperator (g : Grammar) : Walk (Option (String × Int)) := do
  skipBlanks
  match g.operators.binaryAt? (← lookahead g.operators.longestBinary) with
  | none => return none
  | some (operator, precedence) =>
    skip operator.length
    return some (operator, precedence)

def chain (g : Grammar) (steps : Steps) (stack : OperatorStack) : Walk (Option Node) := do
  match ← binaryOperator g with
  | none => return stack.finish
  | some (operator, precedence) =>
    if precedence ≤ 0 then return stack.finish
    else
      let reduced := stack.reduceFor precedence
      let right ← require (.noOperand operator) (steps .operand)
      steps (.chain (reduced.push operator precedence right))

/-- The byte of a name at which a character stands for the last time. -/
def lastByteOf? (c : Char) (name : String) : Option Nat :=
  (Parse.splitAtLast c name.toList).map fun parts => (String.ofList parts.1).utf8ByteSize

/-- Whether an expression can be read here. The index and the mark stay as they are. -/
def expressionFollows (steps : Steps) : Walk Bool := do
  let resume ← index
  let mark ← inBranch
  let alternate ← attempt (steps .expression)
  goBack resume
  setInBranch mark
  return alternate.toOption.join.isSome

def splitGlued (steps : Steps) (start : Nat) (left : Node) : Walk Node := do
  let name := left.name?.getD ""
  match lastByteOf? '?' name with
  | none => return left
  | some byte =>
    let (test, after) ← cut name byte
    if after.toList.dropLast.contains ':' then return left
    else
      let alternateFollows ← (do
        if name.toList.getLast? = some ':' then expressionFollows steps else return true)
      if alternateFollows then
        goBack (start + test.length)
        return .plain test
      else return left

def binary (g : Grammar) (steps : Steps) : Walk (Option Node) := do
  skipBlanks
  let start ← index
  match ← steps .operand with
  | none => return none
  | some left =>
    let isolated := (← previous).any isBlank
    match ← binaryOperator g with
    | none => return some (← splitGlued steps start left)
    | some (operator, precedence) =>
      if Parse.isInsideWord g left isolated operator (← peek) then
        let rest ← name g.letters
        return some (.plain (left.name?.getD "" ++ operator ++ rest))
      else
        let right ← require (.noOperand operator) (steps .operand)
        steps (.chain (.start left operator precedence right))

def expression (g : Grammar) (steps : Steps) : Walk (Option Node) := do
  match ← binary g steps with
  | none => return none
  | some test =>
    skipBlanks
    if ← eat '?' then
      setInBranch true
      let consequent ← require .noExpression (steps .expression)
      skipBlanks
      expect ':' .noColon
      let alternate ← require .noExpression (steps .expression)
      setInBranch false
      return some (.conditional test consequent alternate)
    else return some test

def statements (steps : Steps) : Walk (List Node) := do
  match ← peek with
  | none => return []
  | some c =>
    if c = ';' ∨ c = ',' then
      pass
      steps .statements
    else
      match ← steps .expression with
      | some n => return n :: (← steps .statements)
      | none =>
        match ← peek with
        | none => return []
        | some c => fail (.strayCharacter c)

def round (g : Grammar) (steps : Steps) : Steps
  | .expression => expression g steps
  | .operand => operand g steps
  | .primary => primary g steps
  | .links head => links g steps head
  | .items bracket => items steps bracket
  | .chain stack => chain g steps stack
  | .pairs keys => pairs g steps keys
  | .statements => statements steps

/-- The steps with a number of rounds. -/
def run (g : Grammar) : Nat → Steps
  | 0 => fun _ => endless
  | n + 1 => fun r => round g (run g n) r

end Walk

/-- The tree of a source as it is found on a bare index; none if the index leaves the text. -/
def Grammar.walkWithin (g : Grammar) (rounds : Nat) (source : String) :
    Option (Except Failure Node) :=
  match Walk.run g rounds .statements source.toList ⟨0, false⟩ with
  | .done ns _ => some (.ok (.ofStatements ns))
  | .failed e _ => some (.error (.error e))
  | .unfinished => some (.error .endless)
  | .outside => none

end ExprTree
