import ExprTree.Json.Reader
import ExprTree.Keyed
import ExprTree.Node.Tag

/-!
Reading a syntax tree from its JSON form. A node is an object with a `type` and the fields of its
kind in any order, or an array of the tag and the fields in their order. Fields that the kind does
not have are passed over in an object.

A JSON value is read from its parts up: `Reading` holds what a value can stand for, so that a node
is put together from the readings of its fields.
-/

namespace ExprTree

/-- What a JSON value can stand for. -/
structure Reading where
  json : Json
  node? : Option Node
  /-- All items as nodes, for an array. -/
  nodes? : Option (List Node)
  /-- The keys of named arguments, for an object. -/
  keys? : Option (List (String × Entry Node))

namespace Reading

def string? (r : Reading) : Option String :=
  r.json.string?

def bool? (r : Reading) : Option Bool :=
  r.json.bool?

def literal? (r : Reading) : Option LiteralValue :=
  match r.json with
  | .null => some .null
  | .bool b => some (.bool b)
  | .number n => some (.number n.toBinary64)
  | .string s => some (.string s)
  | _ => none

/-- A field that may be absent; `null` says that it is. -/
def optional? (r : Option Reading) : Option (Option Node) :=
  match r with
  | none => some none
  | some r =>
    match r.json with
    | .null => some none
    | _ => r.node?.map some

/-- The value of one key: a node if it can be read as one, else a list of nodes. -/
def bound? (r : Reading) : Option (Entry Node) :=
  match r.node?, r.nodes? with
  | some n, _ => some (.single n)
  | none, some ns => some (.many ns)
  | none, none => none

/-- The tag that a value names. Below the root the place of a tag in the list of all tags names it
as well. -/
def tag? (r : Reading) : Option Tag :=
  match r.json with
  | .string name => Tag.ofName? name
  | .number (.integer (.ofNat i)) => Tag.all[i]?
  | _ => none

end Reading

namespace Node

/-- A node put together from the readings of its fields. -/
def assemble? (t : Tag) (field? : String → Option Reading) : Option Node :=
  let string? name := (field? name).bind Reading.string?
  let bool? name := (field? name).bind Reading.bool?
  let node? name := (field? name).bind Reading.node?
  let nodes? name := (field? name).bind Reading.nodes?
  match t with
  | .compound => return .compound (← nodes? "body")
  | .identifier =>
    return .identifier (← string? "name") (← Reading.optional? (field? "object"))
      (← Reading.optional? (field? "property"))
  | .literal => return .literal (← (field? "value").bind Reading.literal?) (← string? "raw")
  | .this => some .this
  | .member => return .member (← bool? "computed") (← node? "object") (← node? "property")
  | .call => return .call (← node? "callee") (← nodes? "arguments")
  | .unary => return .unary (← string? "operator") (← node? "argument") (← bool? "prefix")
  | .binary => return .binary (← string? "operator") (← node? "left") (← node? "right")
  | .logical => return .logical (← string? "operator") (← node? "left") (← node? "right")
  | .conditional =>
    return .conditional (← node? "test") (← node? "consequent") (← node? "alternate")
  | .array => return .array (← nodes? "elements")
  | .keyValues => return .keyValues (← (field? "keys").bind Reading.keys?)

/-- How often a name occurs among the members of an object. -/
def occurrences (members : List (String × Reading)) (name : String) : Nat :=
  members.countP (·.1 = name)

/-- The node that an object stands for. The tag and the fields of its kind occur once at most. -/
def ofMembers? (members : List (String × Reading)) : Option Node := do
  let t ← (members.lookup "type").bind Reading.tag?
  if ("type" :: t.fields).all (occurrences members · ≤ 1) then
    assemble? t (members.lookup ·)
  else none

/-- The node that an array stands for: its tag, then its fields, the last of which may be absent
where they are optional. -/
def ofItems? : List Reading → Option Node
  | [] => none
  | head :: fields => do
    let t ← head.tag?
    if fields.length ≤ t.fields.length then assemble? t ((t.fields.zip fields).lookup ·)
    else none

/-- The keys that an object gives, the last value of a repeated one. -/
def keysOfMembers? (members : List (String × Reading)) : Option (List (String × Entry Node)) :=
  let pairs? := members.mapM fun (m : String × Reading) => m.2.bound?.map (m.1, ·)
  pairs?.map Keyed.ofPairs

mutual

/-- What a JSON value can stand for. -/
def reading : Json → Reading
  | .array items =>
    let rs := readings items
    ⟨.array items, ofItems? rs, rs.mapM Reading.node?, none⟩
  | .object members =>
    let rs := memberReadings members
    ⟨.object members, ofMembers? rs, none, keysOfMembers? rs⟩
  | j => ⟨j, none, none, none⟩

def readings : List Json → List Reading
  | [] => []
  | j :: rest => reading j :: readings rest

def memberReadings : List (String × Json) → List (String × Reading)
  | [] => []
  | (name, j) :: rest => (name, reading j) :: memberReadings rest

end

/-- Whether a value names its tag, as the root of a tree has to. -/
def hasNamedTag : Json → Bool
  | .array (.string _ :: _) => true
  | .object members =>
    match members.lookup "type" with
    | some (.string _) => true
    | _ => false
  | _ => false

/-- The tree that a JSON value stands for. -/
def ofJson? (j : Json) : Option Node :=
  if hasNamedTag j then (reading j).node? else none

/-- The tree that a JSON text stands for. -/
def ofText? (text : String) : Option Node :=
  (Json.read? text.toList).bind ofJson?

end Node

end ExprTree
