import ExprTree.Json.Writer
import ExprTree.Node.Tag

/-!
The JSON form of a syntax tree: an object with the tag as `type`, then the fields of its kind in
their order. A field that is absent is left out. A key of named arguments holds one node, or an
array of nodes where the key was repeated.
-/

namespace ExprTree

/-- A literal's value stands for itself. -/
def LiteralValue.toJson : LiteralValue → Json
  | null => .null
  | bool b => .bool b
  | number x => .number (.real x)
  | string s => .string s

namespace Node

/-- An object with a tag in front of its fields. -/
def tagged (t : Tag) (fields : List (String × Json)) : Json :=
  .object (("type", .string t.name) :: fields)

mutual

/-- The JSON form of a tree. -/
def toJson : Node → Json
  | .compound body => tagged .compound [("body", .array (allToJson body))]
  | .identifier name object property =>
    tagged .identifier
      (("name", .string name) :: (optionToJson "object" object ++ optionToJson "property" property))
  | .literal value raw => tagged .literal [("value", value.toJson), ("raw", .string raw)]
  | .this => tagged .this []
  | .member computed object property =>
    tagged .member
      [("computed", .bool computed), ("object", object.toJson), ("property", property.toJson)]
  | .call callee arguments =>
    tagged .call [("callee", callee.toJson), ("arguments", .array (allToJson arguments))]
  | .unary operator argument leading =>
    tagged .unary
      [("operator", .string operator), ("argument", argument.toJson), ("prefix", .bool leading)]
  | .binary operator left right =>
    tagged .binary
      [("operator", .string operator), ("left", left.toJson), ("right", right.toJson)]
  | .logical operator left right =>
    tagged .logical
      [("operator", .string operator), ("left", left.toJson), ("right", right.toJson)]
  | .conditional test consequent alternate =>
    tagged .conditional
      [("test", test.toJson), ("consequent", consequent.toJson),
        ("alternate", alternate.toJson)]
  | .array elements => tagged .array [("elements", .array (allToJson elements))]
  | .keyValues keys => tagged .keyValues [("keys", .object (keysToJson keys))]

def allToJson : List Node → List Json
  | [] => []
  | n :: rest => n.toJson :: allToJson rest

def optionToJson (field : String) : Option Node → List (String × Json)
  | none => []
  | some n => [(field, n.toJson)]

def entryToJson : Entry Node → Json
  | .single n => n.toJson
  | .many ns => .array (allToJson ns)

def keysToJson : List (String × Entry Node) → List (String × Json)
  | [] => []
  | (key, entry) :: rest => (key, entryToJson entry) :: keysToJson rest

end

/-- The written form of a tree. -/
def wire (n : Node) : String :=
  n.toJson.toText

/-- The written form of a tree with the members of every object in the order of their names. -/
def sortedWire (n : Node) : String :=
  n.toJson.sorted.toText

end Node

end ExprTree
