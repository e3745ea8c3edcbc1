import ExprTree.Node.Basic

/-!
The tags that tell the kinds of nodes apart in their JSON form, and the fields of each kind in
their order.
-/

namespace ExprTree

/-- The kind of a node. -/
inductive Tag where
  | compound
  | identifier
  | literal
  | this
  | member
  | call
  | unary
  | binary
  | logical
  | conditional
  | array
  | keyValues
deriving DecidableEq, Repr

namespace Tag

/-- All tags; some readers count on this order. -/
def all : List Tag :=
  [compound, identifier, literal, this, member, call, unary, binary, logical, conditional, array,
    keyValues]

def name : Tag → String
  | compound => "Compound"
  | identifier => "Identifier"
  | literal => "Literal"
  | this => "ThisExpression"
  | member => "MemberExpression"
  | call => "CallExpression"
  | unary => "UnaryExpression"
  | binary => "BinaryExpression"
  | logical => "LogicalExpression"
  | conditional => "ConditionalExpression"
  | array => "ArrayExpression"
  | keyValues => "KeyValueExpression"

def ofName? (name : String) : Option Tag :=
  all.find? (·.name = name)

/-- The fields of a kind of node in their order. -/
def fields : Tag → List String
  | compound => ["body"]
  | identifier => ["name", "object", "property"]
  | literal => ["value", "raw"]
  | this => []
  | member => ["computed", "object", "property"]
  | call => ["callee", "arguments"]
  | unary => ["operator", "argument", "prefix"]
  | binary => ["operator", "left", "right"]
  | logical => ["operator", "left", "right"]
  | conditional => ["test", "consequent", "alternate"]
  | array => ["elements"]
  | keyValues => ["keys"]

theorem ofName?_name (t : Tag) : ofName? t.name = some t := by
  cases t <;> decide

end Tag

/-- The kind of a node. -/
def Node.tag : Node → Tag
  | compound .. => .compound
  | identifier .. => .identifier
  | literal .. => .literal
  | this => .this
  | member .. => .member
  | call .. => .call
  | unary .. => .unary
  | binary .. => .binary
  | logical .. => .logical
  | conditional .. => .conditional
  | array .. => .array
  | keyValues .. => .keyValues

/-- The name of a node's kind. -/
def Node.typeName (n : Node) : String :=
  n.tag.name

end ExprTree
