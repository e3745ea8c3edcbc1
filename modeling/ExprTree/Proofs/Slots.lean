import ExprTree.Node.Decode
import ExprTree.Node.Wire
import ExprTree.Proofs.JsonText
import ExprTree.Proofs.Parts
import Mathlib.Data.List.Nodup

/-!
The fields of a node as one list, whatever its kind. A field holds a value without parts, a node, a
node that may be absent, a list of nodes, or named arguments. A node is written as its fields and
put together from what is read for them. What is said of a tree field by field is said of all kinds
of nodes at once.
-/

namespace ExprTree.Node

/-- What a field of a node holds. -/
inductive Slot where
  | text (s : String)
  | flag (b : Bool)
  | literal (v : LiteralValue)
  | node (n : Node)
  | optional (n : Option Node)
  | list (ns : List Node)
  | keys (keys : List (String × Entry Node))

namespace Slot

/-- The trees in a field. -/
def nodes : Slot → List Node
  | text _ | flag _ | literal _ => []
  | node n => [n]
  | optional n => n.toList
  | list ns => ns
  | keys ks => ks.flatMap fun k => k.2.values

/-- What a field is written as, unless it is absent. -/
def toJson? : Slot → Option Json
  | text s => some (.string s)
  | flag b => some (.bool b)
  | literal v => some v.toJson
  | node n => some n.toJson
  | optional n => n.map Node.toJson
  | list ns => some (.array (allToJson ns))
  | keys ks => some (.object (keysToJson ks))

/-- What was found for a field is read as what the field holds. -/
def Supplied (found : Option Reading) : Slot → Prop
  | text s => found.bind Reading.string? = some s
  | flag b => found.bind Reading.bool? = some b
  | literal v => found.bind Reading.literal? = some v
  | node n => found.bind Reading.node? = some n
  | optional n => Reading.optional? found = some n
  | list ns => found.bind Reading.nodes? = some ns
  | keys ks => found.bind Reading.keys? = some ks

end Slot

/-- The fields of a node with their names, in their order. -/
def slots : Node → List (String × Slot)
  | .compound body => [("body", .list body)]
  | .identifier name object property =>
    [("name", .text name), ("object", .optional object), ("property", .optional property)]
  | .literal value raw => [("value", .literal value), ("raw", .text raw)]
  | .this => []
  | .member computed object property =>
    [("computed", .flag computed), ("object", .node object), ("property", .node property)]
  | .call callee arguments => [("callee", .node callee), ("arguments", .list arguments)]
  | .unary operator argument leading =>
    [("operator", .text operator), ("argument", .node argument),
      ("prefix", .flag leading)]
  | .binary operator left right | .logical operator left right =>
    [("operator", .text operator), ("left", .node left), ("right", .node right)]
  | .conditional test consequent alternate =>
    [("test", .node test), ("consequent", .node consequent), ("alternate", .node alternate)]
  | .array elements => [("elements", .list elements)]
  | .keyValues keys => [("keys", .keys keys)]

/-- The members that a node is written with, its tag apart. -/
def written (n : Node) : List (String × Json) :=
  n.slots.filterMap fun s => s.2.toJson?.map (s.1, ·)

section

variable {n : Node} {t : Tag} {field? : String → Option Reading}

theorem names_slots (n : Node) : n.slots.map (·.1) = n.tag.fields := by
  cases n <;> rfl

theorem nodup_fields (t : Tag) : ("type" :: t.fields).Nodup := by
  cases t <;> decide

theorem nodup_names_slots (n : Node) : (n.slots.map (·.1)).Nodup := by
  rw [names_slots]
  exact (List.nodup_cons.mp (nodup_fields n.tag)).2

theorem ne_type {s : String × Slot} (hs : s ∈ n.slots) : s.1 ≠ "type" := by
  intro h
  have hmem := List.mem_map_of_mem (f := Prod.fst) hs
  rw [names_slots, h] at hmem
  exact (List.nodup_cons.mp (nodup_fields n.tag)).1 hmem

theorem children_eq (n : Node) : n.children = n.slots.flatMap fun s => s.2.nodes := by
  cases n <;> simp [children, slots, Slot.nodes]

theorem toJson_eq (n : Node) : n.toJson = tagged n.tag n.written := by
  cases n with
  | identifier name object property =>
    cases object <;> cases property <;>
      simp [toJson, tag, written, slots, Slot.toJson?, optionToJson]
  | _ => simp [toJson, tag, written, slots, Slot.toJson?]

theorem eq_keyValues {name : String} {keys : List (String × Entry Node)}
    (h : (name, .keys keys) ∈ n.slots) : n = .keyValues keys := by
  cases n <;> simp_all [slots]

theorem eq_literal {name : String} {v : LiteralValue} (h : (name, .literal v) ∈ n.slots) :
    ∃ raw, n = .literal v raw := by
  cases n <;> simp_all [slots]

/-- A node is put together from what its fields hold. -/
theorem assemble?_of_supplied (h : ∀ s ∈ n.slots, s.2.Supplied (field? s.1)) :
    assemble? n.tag field? = some n := by
  cases n <;>
    · simp only [slots, List.forall_mem_cons, Slot.Supplied] at h
      simp [assemble?, tag, h]

end

end ExprTree.Node
