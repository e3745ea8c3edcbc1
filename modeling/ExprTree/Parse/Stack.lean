import ExprTree.Node.Basic

/-!
The operands and operators of a binary expression that are not combined yet. Both are kept with
the last one first. A step takes the last two operands and the last operator off and puts their
node back as one operand.
-/

namespace ExprTree

/-- The operands and operators read so far, the last of each first. -/
structure OperatorStack where
  operands : List Node
  /-- The operators with their precedences. -/
  operators : List (String × Int)

namespace OperatorStack

/-- Two operands with an operator between them. -/
def start (left : Node) (operator : String) (precedence : Int) (right : Node) : OperatorStack :=
  ⟨[right, left], [(operator, precedence)]⟩

/-- Combines the last two operands by the last operator. Where one of them is missing, the others
are lost. -/
def reduce (s : OperatorStack) : OperatorStack :=
  match s.operands, s.operators with
  | right :: left :: operands, (operator, _) :: operators =>
    ⟨.ofOperator operator left right :: operands, operators⟩
  | operands, operators => ⟨operands.drop 2, operators.drop 1⟩

/-- Combines while the last operator binds at least as tightly as the given precedence. An equal
one combines, so operators group to the left. -/
def reduceFor (precedence : Int) (s : OperatorStack) : OperatorStack :=
  (s.operators.takeWhile (precedence ≤ ·.2)).foldl (fun s _ => s.reduce) s

/-- One more operator and operand. -/
def push (operator : String) (precedence : Int) (operand : Node) (s : OperatorStack) :
    OperatorStack :=
  ⟨operand :: s.operands, (operator, precedence) :: s.operators⟩

/-- Combines all, and gives the operand that is left. -/
def finish (s : OperatorStack) : Option Node :=
  (s.operators.foldl (fun s _ => s.reduce) s).operands.head?

end OperatorStack

end ExprTree
