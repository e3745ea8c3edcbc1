import ExprTree.Json.Number
import ExprTree.Json.Quoted

/-!
Reading a JSON text: one value with blanks around it and nothing else. The format is taken
strictly, and arrays and objects nest at most 127 levels. The readers of the parts take the first
value at the beginning of a text and give back what follows it.
-/

namespace ExprTree.Json

/-- The blanks between the tokens of a JSON text. -/
def isSpace (c : Char) : Bool :=
  c == ' ' || c == '\t' || c == '\n' || c == '\r'

def skipSpace (text : List Char) : List Char :=
  text.dropWhile isSpace

/-- The number of levels that arrays and objects may nest. -/
def maxDepth : Nat := 127

mutual

/-- The value at the beginning of a text, which may open `room` more levels. -/
def readValue : (fuel room : Nat) → List Char → Option (Json × List Char)
  | 0, _, _ => none
  | fuel + 1, room, text =>
    match skipSpace text with
    | 'n' :: 'u' :: 'l' :: 'l' :: rest => some (.null, rest)
    | 't' :: 'r' :: 'u' :: 'e' :: rest => some (.bool true, rest)
    | 'f' :: 'a' :: 'l' :: 's' :: 'e' :: rest => some (.bool false, rest)
    | '"' :: rest => (Quoted.read? rest).map fun (s, rest) => (.string (String.ofList s), rest)
    | '[' :: rest =>
      match room, skipSpace rest with
      | 0, _ => none
      | _ + 1, ']' :: rest => some (.array [], rest)
      | room + 1, rest => (readItems fuel room rest).map fun (items, rest) => (.array items, rest)
    | '{' :: rest =>
      match room, skipSpace rest with
      | 0, _ => none
      | _ + 1, '}' :: rest => some (.object [], rest)
      | room + 1, rest =>
        (readMembers fuel room rest).map fun (members, rest) => (.object members, rest)
    | rest => (JsonNumber.read? rest).map fun (n, rest) => (.number n, rest)

/-- The items of an array up to its end, at least one. -/
def readItems : (fuel room : Nat) → List Char → Option (List Json × List Char)
  | 0, _, _ => none
  | fuel + 1, room, text =>
    match readValue fuel room text with
    | none => none
    | some (j, rest) =>
      match skipSpace rest with
      | ']' :: rest => some ([j], rest)
      | ',' :: rest => (readItems fuel room rest).map fun (items, rest) => (j :: items, rest)
      | _ => none

/-- The members of an object up to its end, at least one. -/
def readMembers : (fuel room : Nat) → List Char → Option (List (String × Json) × List Char)
  | 0, _, _ => none
  | fuel + 1, room, text =>
    match skipSpace text with
    | '"' :: rest =>
      match Quoted.read? rest with
      | none => none
      | some (name, rest) =>
        match skipSpace rest with
        | ':' :: rest =>
          match readValue fuel room rest with
          | none => none
          | some (j, rest) =>
            let member := (String.ofList name, j)
            match skipSpace rest with
            | '}' :: rest => some ([member], rest)
            | ',' :: rest =>
              (readMembers fuel room rest).map fun (members, rest) => (member :: members, rest)
            | _ => none
        | _ => none
    | _ => none

end

/-- The value that a whole text is. Every reader of a part consumes a character or calls one that
does, so two rounds for each character are enough. -/
def read? (text : List Char) : Option Json :=
  match readValue (2 * text.length + 2) maxDepth text with
  | some (j, rest) => if (skipSpace rest).isEmpty then some j else none
  | none => none

end ExprTree.Json
