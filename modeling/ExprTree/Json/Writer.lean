import ExprTree.Json.Number
import ExprTree.Json.Quoted

/-!
Writing a JSON value without blanks, the members of an object in the order they are kept. `text` is
the written form; `write` puts it in front of a text that is there already, so that no part is
copied once for each level around it. `write_eq` says that the two agree.
-/

namespace ExprTree.Json

/-- A text between quotes. -/
def quoted (s : String) : List Char :=
  '"' :: (Quoted.encode s.toList ++ ['"'])

/-- The written form of a value without parts. -/
def leafText : Json → List Char
  | .bool true => "true".toList
  | .bool false => "false".toList
  | .number n => n.text
  | .string s => quoted s
  | _ => "null".toList

mutual

/-- The written form of a value. -/
def text : Json → List Char
  | .array items => '[' :: (itemsText items ++ [']'])
  | .object members => '{' :: (membersText members ++ ['}'])
  | j => leafText j

/-- The items of an array with commas between them. -/
def itemsText : List Json → List Char
  | [] => []
  | [j] => text j
  | j :: rest => text j ++ ',' :: itemsText rest

/-- The members of an object with commas between them. -/
def membersText : List (String × Json) → List Char
  | [] => []
  | [(name, j)] => quoted name ++ ':' :: text j
  | (name, j) :: rest => quoted name ++ ':' :: (text j ++ ',' :: membersText rest)

end

mutual

/-- The written form of a value in front of a text. -/
def write : Json → List Char → List Char
  | .array items, after => '[' :: writeItems items (']' :: after)
  | .object members, after => '{' :: writeMembers members ('}' :: after)
  | j, after => leafText j ++ after

def writeItems : List Json → List Char → List Char
  | [], after => after
  | [j], after => write j after
  | j :: rest, after => write j (',' :: writeItems rest after)

def writeMembers : List (String × Json) → List Char → List Char
  | [], after => after
  | [(name, j)], after => quoted name ++ ':' :: write j after
  | (name, j) :: rest, after =>
    quoted name ++ ':' :: write j (',' :: writeMembers rest after)

end

mutual

theorem write_eq : ∀ (j : Json) (after : List Char), write j after = text j ++ after
  | .array items, after => by simp [write, text, writeItems_eq items]
  | .object members, after => by simp [write, text, writeMembers_eq members]
  | .null, after => by simp [write, text]
  | .bool b, after => by simp [write, text]
  | .number n, after => by simp [write, text]
  | .string s, after => by simp [write, text]

theorem writeItems_eq : ∀ (items : List Json) (after : List Char),
    writeItems items after = itemsText items ++ after
  | [], after => by simp [writeItems, itemsText]
  | [j], after => by simp [writeItems, itemsText, write_eq j]
  | j :: k :: rest, after => by
    simp [writeItems, itemsText, write_eq j, writeItems_eq (k :: rest)]

theorem writeMembers_eq : ∀ (members : List (String × Json)) (after : List Char),
    writeMembers members after = membersText members ++ after
  | [], after => by simp [writeMembers, membersText]
  | [(name, j)], after => by simp [writeMembers, membersText, write_eq j]
  | (name, j) :: m :: rest, after => by
    simp [writeMembers, membersText, write_eq j, writeMembers_eq (m :: rest)]

end

/-- The written form of a value as a string. -/
def toText (j : Json) : String :=
  String.ofList (write j [])

theorem toText_eq (j : Json) : j.toText = String.ofList (text j) := by
  simp [toText, write_eq]

end ExprTree.Json
