import ExprTree.Number.Binary64

/-!
JSON values. An object keeps its members in the order they were written, repeated names included,
because what a repeated name means is for the reader of the object to say. A number keeps apart
the integers of 64 bits and the other numbers, which are doubles.
-/

namespace ExprTree

/-- A number of a JSON text. -/
inductive JsonNumber where
  | integer (n : Int)
  | real (x : Binary64)
deriving DecidableEq

/-- A JSON value. -/
inductive Json where
  | null
  | bool (b : Bool)
  | number (n : JsonNumber)
  | string (s : String)
  | array (items : List Json)
  | object (members : List (String × Json))

instance : Inhabited Json := ⟨.null⟩

/-- The double that a JSON number stands for. -/
def JsonNumber.toBinary64 : JsonNumber → Binary64
  | integer n => .ofInt n
  | real x => x

namespace Json

/-- The truth value that a value is. -/
def bool? : Json → Option Bool
  | .bool b => some b
  | _ => none

/-- The integer that a value is. -/
def integer? : Json → Option Int
  | .number (.integer n) => some n
  | _ => none

/-- The text that a value is. -/
def string? : Json → Option String
  | .string s => some s
  | _ => none

mutual

/-- The value with the members of every object in the order of their names. -/
def sorted : Json → Json
  | .array items => .array (sortedItems items)
  | .object members => .object ((sortedMembers members).mergeSort fun a b => decide (a.1 ≤ b.1))
  | j => j

def sortedItems : List Json → List Json
  | [] => []
  | j :: rest => j.sorted :: sortedItems rest

def sortedMembers : List (String × Json) → List (String × Json)
  | [] => []
  | (name, j) :: rest => (name, j.sorted) :: sortedMembers rest

end

end Json

end ExprTree
