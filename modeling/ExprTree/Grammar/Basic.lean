import ExprTree.Grammar.Letters
import ExprTree.Grammar.Operators
import ExprTree.Node.Basic

/-!
A grammar: its operators, the characters of its names, and the word that stands for the receiver.
Grammars are plain values; a change gives another grammar.
-/

namespace ExprTree

structure Grammar where
  operators : OperatorTable
  letters : Letters
  /-- The word that stands for the receiver. -/
  thisWord : String
deriving DecidableEq, Repr

namespace Grammar

/-- The receiver's word unless a grammar sets another. -/
def standardThisWord : String :=
  "this"

def standard : Grammar :=
  ⟨.standard, .standard, standardThisWord⟩

/-- The grammar without any operators. -/
def bare : Grammar :=
  { standard with operators := .empty }

def addUnary (g : Grammar) (op : String) : Grammar :=
  { g with operators := g.operators.addUnary op }

def removeUnary (g : Grammar) (op : String) : Grammar :=
  { g with operators := g.operators.removeUnary op }

def addBinary (g : Grammar) (op : String) (precedence : Int) : Grammar :=
  { g with operators := g.operators.addBinary op precedence }

def removeBinary (g : Grammar) (op : String) : Grammar :=
  { g with operators := g.operators.removeBinary op }

def addLetters (g : Grammar) (chars : String) : Grammar :=
  { g with letters := g.letters.add chars.toList }

def removeLetters (g : Grammar) (chars : String) : Grammar :=
  { g with letters := g.letters.remove chars.toList }

def setThisWord (g : Grammar) (word : String) : Grammar :=
  { g with thisWord := word }

/-- Whether two grammars are the same language with the same lengths looked ahead. -/
def agrees (g h : Grammar) : Bool :=
  g.operators.agrees h.operators && g.letters.agrees h.letters && g.thisWord == h.thisWord

/-- The literal that a word is in every grammar. -/
def wordLiteral? (word : String) : Option LiteralValue :=
  if word = "true" then some (.bool true)
  else if word = "false" then some (.bool false)
  else if word = "null" then some .null
  else none

/-- The tree of a single word: a literal, the receiver, or a name. -/
def wordNode (g : Grammar) (word : String) : Node :=
  match wordLiteral? word with
  | some value => .literal value word
  | none => if word = g.thisWord then .this else .plain word

end Grammar

end ExprTree
