import ExprTree.Grammar.Basic
import ExprTree.Json.Reader
import ExprTree.Json.Writer

/-!
Descriptions of grammars. A description says what to add to a table of operators, standard or
empty, and then what to remove from it. It is written as an object of its fields, any of which may
be left out, or as an array of them in their order, of which the last may be left out.
-/

namespace ExprTree

/-- The precedences that a description can ask for: the integers of 32 bits. -/
def IsPrecedence (p : Int) : Prop :=
  -0x80000000 ≤ p ∧ p < 0x80000000

instance (p : Int) : Decidable (IsPrecedence p) :=
  inferInstanceAs (Decidable (_ ∧ _))

/-- Binary operators with their precedences, each operator once. -/
@[ext]
structure Precedences where
  pairs : Keyed Int
  distinct : pairs.keys.Nodup
  bounded : ∀ o ∈ pairs, IsPrecedence o.2
deriving DecidableEq, Repr

namespace Precedences

def empty : Precedences :=
  ⟨[], List.nodup_nil, List.forall_mem_nil _⟩

/-- What pairs give one after the other, the last precedence of each operator. Any of them that is
out of bounds spoils them all. -/
def ofPairs? (pairs : List (String × Int)) : Option Precedences :=
  if h : ∀ o ∈ pairs, IsPrecedence o.2 then
    some ⟨Keyed.ofPairs pairs, (Keyed.ofPairs_spec pairs).1,
      fun o ho => h o ((Keyed.ofPairs_spec pairs).2 o ho)⟩
  else none

theorem ofPairs?_pairs (ps : Precedences) : ofPairs? ps.pairs = some ps := by
  have hself := Keyed.ofPairs_eq_self ps.distinct
  simp [ofPairs?, dif_pos ps.bounded, hself]

end Precedences

/-- What a grammar is made from. -/
structure Description where
  /-- Whether the standard operators are there from the start. -/
  extendDefaults : Bool
  unary : List String
  binary : Precedences
  removedUnary : List String
  removedBinary : List String
  letters : String
  thisWord : Option String
deriving DecidableEq, Repr

/-- Why there is no grammar. -/
inductive DescriptionError where
  /-- The text is no description. -/
  | unreadable
  | emptyOperator
deriving DecidableEq, Repr

namespace DescriptionError

def message : DescriptionError → String
  | unreadable => "invalid grammar configuration"
  | emptyOperator => "operator must not be empty"

end DescriptionError

namespace Description

/-- The description that adds nothing to the standard grammar. -/
def standard : Description :=
  ⟨true, [], .empty, [], [], "", none⟩

/-- The grammar that a description stands for. Operators are added before any is removed. -/
def grammar (d : Description) : Except DescriptionError Grammar :=
  if "" ∈ d.unary ∨ "" ∈ d.binary.pairs.keys then .error .emptyOperator
  else
    let start := if d.extendDefaults then Grammar.standard else Grammar.bare
    let added := (start.operators.addAllUnary d.unary).addAllBinary d.binary.pairs
    let kept := d.removedBinary.foldl OperatorTable.removeBinary
      (d.removedUnary.foldl OperatorTable.removeUnary added)
    .ok ⟨kept, start.letters.add d.letters.toList, d.thisWord.getD start.thisWord⟩

/-- The fields of a description in their order. -/
def fields : List String :=
  ["extend_defaults", "unary_ops", "binary_ops", "remove_unary_ops", "remove_binary_ops",
    "identifier_chars", "this_keyword"]

def strings? : Json → Option (List String)
  | .array items => items.mapM Json.string?
  | _ => none

def precedences? : Json → Option Precedences
  | .object members => do
    Precedences.ofPairs? (← members.mapM fun (m : String × Json) => m.2.integer?.map (m.1, ·))
  | _ => none

/-- A text that may be `null`, which is the same as leaving it out. -/
def optionalString? : Json → Option (Option String)
  | .null => some none
  | .string s => some (some s)
  | _ => none

/-- The description with the given fields; what is left out is as in the standard one. -/
def assemble? (field? : String → Option Json) : Option Description := do
  let read {α : Type} (name : String) (ofJson? : Json → Option α) (default : α) : Option α :=
    match field? name with
    | none => some default
    | some j => ofJson? j
  return {
    extendDefaults := ← read "extend_defaults" Json.bool? standard.extendDefaults
    unary := ← read "unary_ops" strings? standard.unary
    binary := ← read "binary_ops" precedences? standard.binary
    removedUnary := ← read "remove_unary_ops" strings? standard.removedUnary
    removedBinary := ← read "remove_binary_ops" strings? standard.removedBinary
    letters := ← read "identifier_chars" Json.string? standard.letters
    thisWord := ← read "this_keyword" optionalString? standard.thisWord }

/-- The description that a JSON value stands for. No field is unknown or repeated. -/
def ofJson? : Json → Option Description
  | .object members =>
    let names := members.map (·.1)
    if names.all (· ∈ fields) ∧ names.Nodup then assemble? (members.lookup ·) else none
  | .array items =>
    if items.length ≤ fields.length then assemble? ((fields.zip items).lookup ·) else none
  | _ => none

/-- The JSON form of a description, with all its fields. -/
def toJson (d : Description) : Json :=
  let strings (ss : List String) : Json := .array (ss.map .string)
  .object [
    ("extend_defaults", .bool d.extendDefaults),
    ("unary_ops", strings d.unary),
    ("binary_ops", .object (d.binary.pairs.map fun (op, p) => (op, .number (.integer p)))),
    ("remove_unary_ops", strings d.removedUnary),
    ("remove_binary_ops", strings d.removedBinary),
    ("identifier_chars", .string d.letters),
    ("this_keyword", (d.thisWord.map .string).getD .null)]

/-- The description that a JSON text stands for. -/
def ofText? (text : String) : Option Description :=
  (Json.read? text.toList).bind ofJson?

/-- The written form of a description. -/
def text (d : Description) : String :=
  d.toJson.toText

end Description

/-- The grammar that a JSON text describes. -/
def Grammar.ofText (text : String) : Except DescriptionError Grammar :=
  match Description.ofText? text with
  | none => .error .unreadable
  | some d => d.grammar

end ExprTree
