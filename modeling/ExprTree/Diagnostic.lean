import ExprTree.Parse.Error
import ExprTree.Source.Location

/-!
Diagnostics as they are shown: the message, the place, the line of the source with a caret under
the column, and the hint if there is one.
-/

namespace ExprTree

/-- A number with blanks in front of it up to the width of three. -/
def lineNumber (n : Nat) : String :=
  let digits := toString n
  "".pushn ' ' (3 - digits.length) ++ digits

/-- The line of a text that is shown for a location; a line that is not there shows as empty. -/
def shownLine (text : List Char) (l : Location) : List Char :=
  ((shownLines text)[l.line - 1]?).getD []

/-- A diagnostic of a source text as it is shown, with the name of where the text came from. -/
def Diagnostic.render (d : Diagnostic) (file source : String) : String :=
  let l := Location.ofOffset source.toList d.index
  let line := toString l.line
  "error[" ++ d.kind.code ++ "]: " ++ d.message ++
    "\n  --> " ++ file ++ ":" ++ line ++ ":" ++ toString (l.column + 1) ++
    "\n   |\n" ++ lineNumber l.line ++ " | " ++ String.ofList (shownLine source.toList l) ++
    "\n   | " ++ "".pushn ' ' l.column ++ "^" ++
    match d.help? with
    | none => ""
    | some help => "\n\nhelp: " ++ help

end ExprTree
