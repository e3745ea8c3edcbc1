import ExprTree.Keyed

/-!
Tables of operators. A table knows the length of its longest unary and binary operator, which
bounds how far ahead a match has to look. The lengths are kept up to date by every change: adding
an operator can only raise one, and removing an operator is looked into only if the operator was
as long as the longest. Where operators begin alike, the longest one wins.
-/

namespace ExprTree

/-- The longest of the given texts, in characters, 0 if there are none. -/
def longestLength (texts : List String) : Nat :=
  texts.foldr (fun s n => max s.length n) 0

/-- The longest of the first `n` beginnings of a text that is accepted; the empty one never is. -/
def longestBeginning (accept : String → Bool) : (n : Nat) → List Char → Option String
  | 0, _ => none
  | n + 1, text =>
    let candidate := String.ofList (text.take (n + 1))
    if accept candidate then some candidate else longestBeginning accept n text

/-- The operators of a grammar. -/
structure OperatorTable where
  unary : List String
  /-- The binary operators with their precedences; the higher one binds tighter. -/
  binary : Keyed Int
  /-- The length of the longest unary operator. -/
  longestUnary : Nat
  /-- The length of the longest binary operator. -/
  longestBinary : Nat
deriving DecidableEq, Repr

namespace OperatorTable

def empty : OperatorTable :=
  ⟨[], [], 0, 0⟩

def isUnary (t : OperatorTable) (op : String) : Bool :=
  t.unary.contains op

def precedence? (t : OperatorTable) (op : String) : Option Int :=
  t.binary.get? op

def addUnary (t : OperatorTable) (op : String) : OperatorTable :=
  { t with
    unary := if t.isUnary op then t.unary else t.unary ++ [op]
    longestUnary := max t.longestUnary op.length }

/-- The table without a unary operator. -/
def removeUnary (t : OperatorTable) (op : String) : OperatorTable :=
  let rest := t.unary.filter (· ≠ op)
  { t with
    unary := rest
    longestUnary := if op.length = t.longestUnary then longestLength rest else t.longestUnary }

/-- The table with a binary operator; one that was there already gets the new precedence. -/
def addBinary (t : OperatorTable) (op : String) (precedence : Int) : OperatorTable :=
  { t with
    binary := t.binary.set op precedence
    longestBinary := max t.longestBinary op.length }

/-- The table without a binary operator. -/
def removeBinary (t : OperatorTable) (op : String) : OperatorTable :=
  let rest := t.binary.erase op
  { t with
    binary := rest
    longestBinary :=
      if op.length = t.longestBinary then longestLength rest.keys else t.longestBinary }

/-- The longest unary operator that a text begins with. -/
def unaryAt? (t : OperatorTable) (text : List Char) : Option String :=
  longestBeginning t.isUnary (min t.longestUnary text.length) text

/-- The longest binary operator that a text begins with, and its precedence. -/
def binaryAt? (t : OperatorTable) (text : List Char) : Option (String × Int) := do
  let op ← longestBeginning (fun op => (t.precedence? op).isSome)
    (min t.longestBinary text.length) text
  return (op, ← t.precedence? op)

/-- Whether two tables hold the same operators and lengths; in which order they came does not
matter. -/
def agrees (t u : OperatorTable) : Bool :=
  t.unary.all u.isUnary && u.unary.all t.isUnary &&
    t.binary.all (fun (op, p) => u.precedence? op == some p) &&
    u.binary.all (fun (op, p) => t.precedence? op == some p) &&
    t.longestUnary == u.longestUnary && t.longestBinary == u.longestBinary

/-- The unary operators of the standard table. -/
def standardUnary : List String :=
  ["-", "!", "~", "+"]

/-- The binary operators of the standard table. -/
def standardBinary : List (String × Int) :=
  [("||", 1), ("&&", 2), ("|", 3), ("^", 4), ("&", 5), ("==", 6), ("!=", 6), ("===", 6),
    ("!==", 6), ("<", 7), (">", 7), ("<=", 7), (">=", 7), ("<<", 8), (">>", 8), (">>>", 8),
    ("+", 9), ("-", 9), ("*", 10), ("/", 10), ("%", 10)]

def addAllUnary (t : OperatorTable) (ops : List String) : OperatorTable :=
  ops.foldl addUnary t

def addAllBinary (t : OperatorTable) (ops : List (String × Int)) : OperatorTable :=
  ops.foldl (fun t (op, p) => t.addBinary op p) t

def standard : OperatorTable :=
  (empty.addAllUnary standardUnary).addAllBinary standardBinary

end OperatorTable

end ExprTree
