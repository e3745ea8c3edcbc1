import ExprTree.Keyed
import ExprTree.Parse.Basic
import ExprTree.Parse.Stack

/-!
The rules of the grammar that refer to each other, and what each gives. A rule is written as a
step that is handed all rules for its parts, so that it is not recursive itself; `run` in
`ExprTree.Parse.Source` ties them together.
-/

namespace ExprTree

/-- What a primary is. -/
inductive Term where
  | node (n : Node)
  /-- A named argument `name=value`. -/
  | pair (name : String) (value : Node)

/-- The rules that refer to each other. -/
inductive Rule where
  | expression
  /-- One operand of a binary expression. -/
  | operand
  /-- A name, a named argument or a group, with its links. -/
  | primary
  /-- The links `.b`, `[b]` and `(b)` after what was read so far. -/
  | links (head : Node)
  /-- The items of a list up to its closing bracket. -/
  | items (bracket : Bracket)
  /-- The operators and operands after what was read so far. -/
  | chain (stack : OperatorStack)
  /-- The named arguments after the ones read so far. -/
  | pairs (keys : Keyed (Entry Node))
  /-- The expressions up to the end of the source. -/
  | statements

/-- What a rule gives. A rule that may find nothing of its kind gives an option. -/
@[reducible]
def Rule.Answer : Rule → Type
  | expression => Option Node
  | operand => Option Node
  | primary => Term
  | links _ => Node
  | items _ => List Node
  | chain _ => Option Node
  | pairs _ => Keyed (Entry Node)
  | statements => List Node

/-- A parser for each rule. -/
abbrev Rules := (r : Rule) → Parse r.Answer

end ExprTree
