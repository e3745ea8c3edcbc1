import ExprTree.Node.Basic

/-!
The trees inside a tree. A condition on all of them is one on the whole tree and on the parts of
each of its children, see `forall_parts_iff`.
-/

namespace ExprTree.Node

mutual

/-- A tree and all trees inside it, the whole one first. -/
def parts : Node → List Node
  | .compound body => .compound body :: allParts body
  | .identifier name object property =>
    .identifier name object property :: (optionParts object ++ optionParts property)
  | .literal value raw => [.literal value raw]
  | .this => [.this]
  | .member computed object property =>
    .member computed object property :: (parts object ++ parts property)
  | .call callee arguments => .call callee arguments :: (parts callee ++ allParts arguments)
  | .unary operator argument leading => .unary operator argument leading :: parts argument
  | .binary operator left right => .binary operator left right :: (parts left ++ parts right)
  | .logical operator left right => .logical operator left right :: (parts left ++ parts right)
  | .conditional test consequent alternate =>
    .conditional test consequent alternate ::
      (parts test ++ parts consequent ++ parts alternate)
  | .array elements => .array elements :: allParts elements
  | .keyValues keys => .keyValues keys :: keyParts keys

def optionParts : Option Node → List Node
  | none => []
  | some n => parts n

def allParts : List Node → List Node
  | [] => []
  | n :: rest => parts n ++ allParts rest

def entryParts : Entry Node → List Node
  | .single n => parts n
  | .many ns => allParts ns

def keyParts : List (String × Entry Node) → List Node
  | [] => []
  | (_, entry) :: rest => entryParts entry ++ keyParts rest

end

/-- The trees right below the root of a tree, from left to right. -/
def children : Node → List Node
  | .compound body => body
  | .identifier _ object property => object.toList ++ property.toList
  | .literal _ _ | .this => []
  | .member _ object property => [object, property]
  | .call callee arguments => callee :: arguments
  | .unary _ argument _ => [argument]
  | .binary _ left right | .logical _ left right => [left, right]
  | .conditional test consequent alternate => [test, consequent, alternate]
  | .array elements => elements
  | .keyValues keys => keys.flatMap fun k => k.2.values

theorem optionParts_eq (o : Option Node) : optionParts o = o.toList.flatMap parts := by
  cases o <;> simp [optionParts]

theorem allParts_eq (ns : List Node) : allParts ns = ns.flatMap parts := by
  induction ns with
  | nil => rfl
  | cons n ns ih => rw [allParts, ih, List.flatMap_cons]

theorem entryParts_eq (e : Entry Node) : entryParts e = e.values.flatMap parts := by
  cases e with
  | single n => simp [entryParts, Entry.values]
  | many ns => simp [entryParts, Entry.values, allParts_eq]

theorem keyParts_eq (keys : List (String × Entry Node)) :
    keyParts keys = (keys.flatMap fun k => k.2.values).flatMap parts := by
  induction keys with
  | nil => rfl
  | cons k keys ih =>
    obtain ⟨key, entry⟩ := k
    rw [keyParts, ih, entryParts_eq, List.flatMap_cons, List.flatMap_append]

/-- A tree comes before the parts of its children. -/
theorem parts_eq (n : Node) : n.parts = n :: n.children.flatMap parts := by
  cases n <;>
    simp [parts, children, optionParts_eq, allParts_eq, keyParts_eq, List.flatMap_append]

/-- A condition on all parts of a tree, taken apart. -/
theorem forall_parts_iff {p : Node → Prop} {n : Node} :
    (∀ m ∈ n.parts, p m) ↔ p n ∧ ∀ c ∈ n.children, ∀ m ∈ c.parts, p m := by
  rw [parts_eq, List.forall_mem_cons, List.forall_mem_flatMap]

theorem self_mem_parts (n : Node) : n ∈ n.parts := by
  rw [parts_eq]
  exact List.mem_cons_self

/-- The parts of a child are parts of the tree. -/
theorem mem_parts_of_child {n c m : Node} (hc : c ∈ n.children) (hm : m ∈ c.parts) :
    m ∈ n.parts := by
  rw [parts_eq]
  exact List.mem_cons_of_mem n (List.mem_flatMap_of_mem hc hm)

/-- What holds of a tree whenever it holds of its children holds of all trees. -/
theorem induct_children {p : Node → Prop} (h : ∀ n, (∀ c ∈ n.children, p c) → p n) (n : Node) :
    p n := by
  generalize hsize : n.parts.length = size
  induction size using Nat.strongRecOn generalizing n with
  | _ size ih =>
    refine h n fun c hc => ih c.parts.length ?_ c rfl
    obtain ⟨before, after, hsplit⟩ := List.append_of_mem hc
    rw [← hsize, n.parts_eq, hsplit]
    simp only [List.flatMap_append, List.flatMap_cons, List.length_cons, List.length_append]
    omega

end ExprTree.Node
