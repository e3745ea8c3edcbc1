import ExprTree.Parse.Lexeme
import ExprTree.Parse.Rule

/-!
Primaries: a word or a group in parentheses with links after it, and the lists of items between
brackets. A word with a single `=` right after it is a named argument. A `!` glued to a name or to
a quoted text joins it with the name after it.
-/

namespace ExprTree.Parse

/-- A word as what it stands for, or a named argument with its value. -/
def word (g : Grammar) (rules : Rules) : Parse Term := do
  let w ← name g.letters
  let c ← here
  if c.peek? = some '=' ∧ c.peekAt? 1 ≠ some '=' then
    advance 1
    return .pair w (← require (.noValue w) (rules .expression))
  else
    return .node (g.wordNode w)

/-- An expression in parentheses. -/
def group (rules : Rules) : Parse Node := do
  advance 1
  let n ← require .noExpression (rules .expression)
  skipBlanks
  expect ')' .openGroup
  return n

/-- A word or a group with its links; a named argument has none. -/
def primary (g : Grammar) (rules : Rules) : Parse Term := do
  let head ← (do
    if (← peek) = some '(' then return .node (← group rules) else word g rules)
  match head with
  | .pair w value => return .pair w value
  | .node n =>
    skipBlanks
    return .node (← rules (.links n))

/-- The links after a node, one after the other; blanks between them do not matter. -/
def links (g : Grammar) (rules : Rules) (head : Node) : Parse Node := do
  match ← peek with
  | some '.' =>
    advance 1
    skipBlanks
    let property ← name g.letters
    skipBlanks
    rules (.links (.member false head (.plain property)))
  | some '[' =>
    advance 1
    let property ← require .noExpression (rules .expression)
    skipBlanks
    expect ']' .openSubscript
    skipBlanks
    rules (.links (.member true head property))
  | some '(' =>
    advance 1
    let arguments ← rules (.items .round)
    skipBlanks
    rules (.links (.call head arguments))
  | _ => return head

/-- The kinds of links are told apart by the next character. -/
theorem links_eq (g : Grammar) (rules : Rules) (head : Node) :
    links g rules head = (do
      let next ← peek
      if next = some '.' then
        advance 1
        skipBlanks
        let property ← name g.letters
        skipBlanks
        rules (.links (.member false head (.plain property)))
      else if next = some '[' then
        advance 1
        let property ← require .noExpression (rules .expression)
        skipBlanks
        expect ']' .openSubscript
        skipBlanks
        rules (.links (.member true head property))
      else if next = some '(' then
        advance 1
        let arguments ← rules (.items .round)
        skipBlanks
        rules (.links (.call head arguments))
      else return head) := by
  unfold links
  refine congrArg (peek >>= ·) (funext fun next => ?_)
  split
  · rfl
  · rfl
  · rfl
  · simp_all

/-- The items of a list, with commas or blanks between them, and its closing bracket. -/
def items (rules : Rules) (bracket : Bracket) : Parse (List Node) := do
  skipBlanks
  match ← peek with
  | none => fail (.openList bracket)
  | some c =>
    if c = bracket.closing then
      advance 1
      return []
    else if c = ',' then
      advance 1
      rules (.items bracket)
    else
      match ← rules .expression with
      | none | some (.compound _) => fail .noItem
      | some n => return n :: (← rules (.items bracket))

/-- Whether a `!` with a name after it is glued to what was just read. -/
def joinFollows (l : Letters) (c : Cursor) : Bool :=
  !c.previous?.any isBlank && c.peek? == some '!' && (c.peekAt? 1).any l.isStart

/-- A name or a quoted text, spelled `raw` and meaning `base`, joined with the name after it. -/
def join (l : Letters) (raw base : String) : Parse Node := do
  advance 1
  let suffix ← name l
  return .identifier (raw ++ "!" ++ suffix) (some (.plain base)) (some (.plain suffix))

/-- A node, joined with the name after it if it is a name itself. -/
def joinName (l : Letters) (n : Node) : Parse Node := do
  match n, joinFollows l (← here) with
  | .identifier w none _, true => join l w w
  | _, _ => return n

/-- A text in single quotes, joined with the name after it if there is one. -/
def joinableText (l : Letters) : Parse Node := do
  let (value, raw) ← quotation
  if joinFollows l (← here) then join l raw value
  else return .literal (.string value) raw

end ExprTree.Parse
