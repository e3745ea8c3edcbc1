import ExprTree.Parse.Expression

/-!
Whole sources: expressions one after the other, with `;` or `,` between them or nothing. One
expression is its own tree, any other number of them is a compound.

The rules are tied together by a number of rounds: in the last round every rule is left
unfinished. `parse` gives more rounds than the rules can use up while they go forward in the
source, so only a parse that would go on for ever in one place is left unfinished.
-/

namespace ExprTree

namespace Parse

/-- The expressions up to the end of the source. -/
def statements (rules : Rules) : Parse (List Node) := do
  match ← peek with
  | none => return []
  | some c =>
    if c = ';' ∨ c = ',' then
      advance 1
      rules .statements
    else
      match ← rules .expression with
      | some n => return n :: (← rules .statements)
      | none =>
        match ← peek with
        | none => return []
        | some c => fail (.strayCharacter c)

/-- One round of each rule, with the rules for its parts. -/
def round (g : Grammar) (rules : Rules) : Rules
  | .expression => expression g rules
  | .operand => operand g rules
  | .primary => primary g rules
  | .links head => links g rules head
  | .items bracket => items rules bracket
  | .chain stack => chain g rules stack
  | .pairs keys => pairs g rules keys
  | .statements => statements rules

/-- The rules with a number of rounds. -/
def run (g : Grammar) : Nat → Rules
  | 0 => fun _ => endless
  | n + 1 => fun r => round g (run g n) r

end Parse

/-- Why a source has no tree. -/
inductive Failure where
  | error (e : ParseError)
  /-- The parse goes on for ever in one place. -/
  | endless
deriving DecidableEq, Repr

/-- The tree of a source: its only expression, or the compound of all. -/
def Node.ofStatements : List Node → Node
  | [n] => n
  | ns => .compound ns

/-- The state in front of a source. -/
def State.start (source : String) : State :=
  ⟨.start source.toList, false⟩

namespace Grammar

/-- The tree of a source, found in a number of rounds. -/
def parseWithin (g : Grammar) (rounds : Nat) (source : String) : Except Failure Node :=
  match Parse.run g rounds .statements (.start source) with
  | .done ns _ => .ok (.ofStatements ns)
  | .failed e => .error (.error e)
  | .unfinished => .error .endless

/-- Enough rounds for a source: at each character, and at the end, no rule comes up twice. -/
def rounds (source : String) : Nat :=
  16 * (source.length + 2)

/-- The tree of a source, or why there is none. -/
def parse (g : Grammar) (source : String) : Except Failure Node :=
  g.parseWithin (rounds source) source

end Grammar

end ExprTree
