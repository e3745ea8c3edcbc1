import ExprTree.Grammar.Basic
import ExprTree.Number.Numeral
import ExprTree.Proofs.QuotedTexts

/-!
Trees written in the standard grammar. `Core` says which trees have a spelling there, and `print`
spells them with parentheses only where a part binds less tightly than its place asks for.
-/

namespace ExprTree.Print

/-- A name by its characters: one that may begin a name, then characters of names. -/
def IsWord (w : String) : Prop :=
  ∃ c rest, w.toList = c :: rest ∧ Grammar.standard.letters.isStart c = true ∧
    ∀ d ∈ rest, Grammar.standard.letters.isPart d = true

/-- The entry of a key that came as often as its values. -/
def WellCounted : Entry Node → Prop
  | .single _ => True
  | .many values => 2 ≤ values.length

/-- The trees that sources of the standard grammar stand for. -/
inductive Core : Node → Prop
  | name {w : String} : IsWord w → Grammar.wordLiteral? w = none →
    w ≠ Grammar.standardThisWord → Core (.plain w)
  | word {value : LiteralValue} {w : String} : Grammar.wordLiteral? w = some value →
    Core (.literal value w)
  | number {x : Binary64} {w : String} : Numeral.read? w.toList = some x →
    Core (.literal (.number x) w)
  | text {quote : Char} {value raw : String} : quote = '"' ∨ quote = '\'' →
    QuotedText.IsText quote value.toList raw.toList → Core (.literal (.string value) raw)
  | this : Core .this
  | property {object : Node} {w : String} : Core object → IsWord w →
    Core (.member false object (.plain w))
  | subscript {object property : Node} : Core object → Core property →
    Core (.member true object property)
  | call {callee : Node} {arguments : List Node} : Core callee → (∀ a ∈ arguments, Core a) →
    Core (.call callee arguments)
  | unary {operator : String} {argument : Node} : operator ∈ OperatorTable.standardUnary →
    Core argument → Core (.unary operator argument true)
  | operator {operator : String} {precedence : Int} {left right : Node} :
    (operator, precedence) ∈ OperatorTable.standardBinary → Core left → Core right →
    Core (.ofOperator operator left right)
  | conditional {test consequent alternate : Node} : Core test → Core consequent →
    Core alternate → Core (.conditional test consequent alternate)
  | array {elements : List Node} : (∀ e ∈ elements, Core e) → Core (.array elements)
  | keyValues {keys : Keyed (Entry Node)} : keys ≠ [] → keys.keys.Nodup →
    (∀ k ∈ keys, IsWord k.1 ∧ WellCounted k.2) → (∀ k ∈ keys, ∀ v ∈ k.2.values, Core v) →
    Core (.keyValues keys)

/-- The precedence of a binary operator of the standard table. -/
def precedence (operator : String) : Int :=
  (OperatorTable.standard.precedence? operator).getD 0

/-- How tightly a node binds: named arguments least of all, then conditionals, then the operators
by their precedences, then what stands in front of an operand or alone, and tightest of all what
can have links. -/
def tightness : Node → Int
  | .keyValues _ => 0
  | .conditional _ _ _ => 1
  | .binary operator _ _ | .logical operator _ _ => 1 + precedence operator
  | .unary _ _ _ | .array _ | .literal (.number _) _ | .literal (.string _) _ => 12
  | _ => 13

/-- A node's text, in parentheses if it binds less tightly than asked for. -/
def wrap (level : Int) (n : Node) (text : List Char) : List Char :=
  if tightness n < level then '(' :: (text ++ [')']) else text

/-- A binary operator between two operands. A left operand may bind as tightly as the operator
itself, a right one has to bind tighter. -/
def infixed (operator : String) (left : Node) (leftText : List Char) (right : Node)
    (rightText : List Char) : List Char :=
  wrap (1 + precedence operator) left leftText ++
    ' ' :: (operator.toList ++ ' ' :: wrap (2 + precedence operator) right rightText)

/-- Texts with commas between them. -/
def commas : List (List Char) → List Char
  | [] => []
  | [t] => t
  | t :: u :: ts => t ++ ',' :: commas (u :: ts)

/-- A named argument. -/
def pairText (key : String) (value : Node) (valueText : List Char) : List Char :=
  key.toList ++ '=' :: wrap 1 value valueText

mutual

/-- A node's text without parentheses around it. -/
def bare : Node → List Char
  | .compound _ => []
  | .identifier w _ _ => w.toList
  | .literal _ raw => raw.toList
  | .this => Grammar.standardThisWord.toList
  | .member true object property =>
    wrap 13 object (bare object) ++ '[' :: (bare property ++ [']'])
  | .member false object property => wrap 13 object (bare object) ++ '.' :: bare property
  | .call callee arguments =>
    wrap 13 callee (bare callee) ++ '(' :: (commas (itemTexts arguments) ++ [')'])
  | .unary operator argument _ => operator.toList ++ wrap 12 argument (bare argument)
  | .binary operator left right => infixed operator left (bare left) right (bare right)
  | .logical operator left right => infixed operator left (bare left) right (bare right)
  | .conditional test consequent alternate =>
    wrap 2 test (bare test) ++ ' ' :: '?' :: ' ' :: (bare consequent ++
      ' ' :: ':' :: ' ' :: wrap 1 alternate (bare alternate))
  | .array elements => '[' :: (commas (itemTexts elements) ++ [']'])
  | .keyValues keys => commas (keyTexts keys)

/-- The texts of items. Named arguments before the last item would take the comma after them. -/
def itemTexts : List Node → List (List Char)
  | [] => []
  | [n] => [bare n]
  | n :: m :: ns => wrap 1 n (bare n) :: itemTexts (m :: ns)

def valueTexts (key : String) : List Node → List (List Char)
  | [] => []
  | v :: vs => pairText key v (bare v) :: valueTexts key vs

def entryTexts (key : String) : Entry Node → List (List Char)
  | .single v => [pairText key v (bare v)]
  | .many vs => valueTexts key vs

def keyTexts : List (String × Entry Node) → List (List Char)
  | [] => []
  | (key, entry) :: keys => entryTexts key entry ++ keyTexts keys

end

/-- The text of a tree. -/
def print (n : Node) : String :=
  String.ofList (bare n)

end ExprTree.Print
