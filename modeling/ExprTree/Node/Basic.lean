import ExprTree.Number.Binary64

/-!
The syntax trees of expressions. Trees are plain values; `same_iff` says that the comparison of
two trees decides their equality.
-/

namespace ExprTree

/-- The value of a literal. -/
inductive LiteralValue where
  | null
  | bool (b : Bool)
  | number (x : Binary64)
  | string (s : String)
deriving DecidableEq

/-- What is bound to one key of named arguments: one value, or the values of a repeated key in
their order. -/
inductive Entry (α : Type) where
  | single (value : α)
  | many (values : List α)

namespace Entry

variable {α : Type}

/-- All values bound to the key, in their order. -/
def values : Entry α → List α
  | single a => [a]
  | many as => as

/-- One more value for the same key. -/
def push (e : Entry α) (a : α) : Entry α :=
  many (e.values ++ [a])

@[simp] theorem values_push (e : Entry α) (a : α) : (e.push a).values = e.values ++ [a] := rfl

end Entry

/-- A syntax tree. -/
inductive Node where
  /-- Several expressions in a row, or none. -/
  | compound (body : List Node)
  /-- A name. Its two halves are present only for a name with a `!` inside, such as `a!b`. -/
  | identifier (name : String) (object property : Option Node)
  /-- A literal with its spelling. -/
  | literal (value : LiteralValue) (raw : String)
  | this
  /-- `a.b`, or `a[b]` if the property is computed. -/
  | member (computed : Bool) (object property : Node)
  | call (callee : Node) (arguments : List Node)
  /-- An operator with one argument, written in front of it if `leading`. -/
  | unary (operator : String) (argument : Node) (leading : Bool)
  | binary (operator : String) (left right : Node)
  /-- Like `binary`, for the operators that may skip their right side. -/
  | logical (operator : String) (left right : Node)
  | conditional (test consequent alternate : Node)
  | array (elements : List Node)
  /-- Named arguments in the order of their keys' first occurrences. -/
  | keyValues (keys : List (String × Entry Node))

namespace Node

instance : Inhabited Node := ⟨.this⟩

/-- A plain name. -/
def plain (name : String) : Node :=
  .identifier name none none

/-- An operator between two operands; `&&` and `||` are the logical ones. -/
def ofOperator (operator : String) (left right : Node) : Node :=
  if operator = "&&" ∨ operator = "||" then .logical operator left right
  else .binary operator left right

/-- The name of an identifier. -/
def name? : Node → Option String
  | identifier name _ _ => some name
  | _ => none

mutual

/-- Whether two trees are equal. -/
def same : Node → Node → Bool
  | .compound b, .compound b' => sameAll b b'
  | .identifier n o p, .identifier n' o' p' => n == n' && sameOption o o' && sameOption p p'
  | .literal v r, .literal v' r' => v == v' && r == r'
  | .this, .this => true
  | .member c o p, .member c' o' p' => c == c' && same o o' && same p p'
  | .call f as, .call f' as' => same f f' && sameAll as as'
  | .unary n a l, .unary n' a' l' => n == n' && same a a' && l == l'
  | .binary n l r, .binary n' l' r' => n == n' && same l l' && same r r'
  | .logical n l r, .logical n' l' r' => n == n' && same l l' && same r r'
  | .conditional t c a, .conditional t' c' a' => same t t' && same c c' && same a a'
  | .array es, .array es' => sameAll es es'
  | .keyValues ks, .keyValues ks' => sameKeys ks ks'
  | _, _ => false

def sameOption : Option Node → Option Node → Bool
  | none, none => true
  | some a, some b => same a b
  | _, _ => false

def sameAll : List Node → List Node → Bool
  | [], [] => true
  | a :: as, b :: bs => same a b && sameAll as bs
  | _, _ => false

def sameEntry : Entry Node → Entry Node → Bool
  | .single a, .single b => same a b
  | .many as, .many bs => sameAll as bs
  | _, _ => false

def sameKeys : List (String × Entry Node) → List (String × Entry Node) → Bool
  | [], [] => true
  | (k, e) :: ks, (k', e') :: ks' => k == k' && sameEntry e e' && sameKeys ks ks'
  | _, _ => false

end

mutual

theorem same_iff : ∀ a b : Node, same a b = true ↔ a = b
  | .compound b, t => by cases t <;> simp [same, sameAll_iff b]
  | .identifier n o p, t => by
    cases t <;> simp [same, sameOption_iff o, sameOption_iff p, and_assoc]
  | .literal v r, t => by cases t <;> simp [same]
  | .this, t => by cases t <;> simp [same]
  | .member c o p, t => by cases t <;> simp [same, same_iff o, same_iff p, and_assoc]
  | .call f as, t => by cases t <;> simp [same, same_iff f, sameAll_iff as]
  | .unary n a l, t => by cases t <;> simp [same, same_iff a, and_assoc]
  | .binary n l r, t => by cases t <;> simp [same, same_iff l, same_iff r, and_assoc]
  | .logical n l r, t => by cases t <;> simp [same, same_iff l, same_iff r, and_assoc]
  | .conditional c t e, u => by
    cases u <;> simp [same, same_iff c, same_iff t, same_iff e, and_assoc]
  | .array es, t => by cases t <;> simp [same, sameAll_iff es]
  | .keyValues ks, t => by cases t <;> simp [same, sameKeys_iff ks]

theorem sameOption_iff : ∀ a b : Option Node, sameOption a b = true ↔ a = b
  | none, b => by cases b <;> simp [sameOption]
  | some a, b => by cases b <;> simp [sameOption, same_iff a]

theorem sameAll_iff : ∀ as bs : List Node, sameAll as bs = true ↔ as = bs
  | [], bs => by cases bs <;> simp [sameAll]
  | a :: as, bs => by cases bs <;> simp [sameAll, same_iff a, sameAll_iff as]

theorem sameEntry_iff : ∀ a b : Entry Node, sameEntry a b = true ↔ a = b
  | .single a, b => by cases b <;> simp [sameEntry, same_iff a]
  | .many as, b => by cases b <;> simp [sameEntry, sameAll_iff as]

theorem sameKeys_iff : ∀ ks ks' : List (String × Entry Node), sameKeys ks ks' = true ↔ ks = ks'
  | [], ks' => by cases ks' <;> simp [sameKeys]
  | (k, e) :: ks, ks' => by
    cases ks' with
    | nil => simp [sameKeys]
    | cons p ks' =>
      obtain ⟨k', e'⟩ := p
      simp [sameKeys, sameEntry_iff e, sameKeys_iff ks, and_assoc]

end

instance : DecidableEq Node := fun a b => decidable_of_iff _ (same_iff a b)

end Node

end ExprTree
