/-!
The characters of names. ASCII letters, `_` and `$` begin a name, and digits may follow; a grammar
can admit more characters, which then may stand anywhere in a name.
-/

namespace ExprTree

/-- The characters of names, given by those beyond the ones that always are. -/
structure Letters where
  extra : List Char
deriving DecidableEq, Repr

namespace Letters

def standard : Letters :=
  ⟨[]⟩

def isExtra (l : Letters) (c : Char) : Bool :=
  l.extra.contains c

/-- Whether a name may begin with the character. -/
def isStart (l : Letters) (c : Char) : Bool :=
  c == '$' || c == '_' || c.isAlpha || l.isExtra c

/-- Whether the character may stand inside a name. -/
def isPart (l : Letters) (c : Char) : Bool :=
  l.isStart c || c.isDigit

/-- Admits every character of a text. -/
def add (l : Letters) (chars : List Char) : Letters :=
  ⟨chars.foldl (fun extra c => if extra.contains c then extra else extra ++ [c]) l.extra⟩

/-- No longer admits the characters of a text, the ones that always are apart. -/
def remove (l : Letters) (chars : List Char) : Letters :=
  ⟨l.extra.filter (!chars.contains ·)⟩

/-- Whether two sets admit the same characters. -/
def agrees (l m : Letters) : Bool :=
  l.extra.all m.isExtra && m.extra.all l.isExtra

end Letters

end ExprTree
