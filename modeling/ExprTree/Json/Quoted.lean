/-!
Quoted texts of JSON. Writing escapes the quote, the backslash and the control characters, and
nothing else; reading accepts every escape of the format and refuses raw control characters and
halves of surrogate pairs. The main statement is `read?_encode`: what is written is read back.
-/

namespace ExprTree.Quoted

/-- The lower-case hexadecimal digit of a number below sixteen. -/
def hexDigit (n : Nat) : Char :=
  (Nat.digitChar n)

/-- A character as it is written between quotes. -/
def encodeChar (c : Char) : List Char :=
  match c with
  | '"' => ['\\', '"']
  | '\\' => ['\\', '\\']
  | '\x08' => ['\\', 'b']
  | '\x0c' => ['\\', 'f']
  | '\n' => ['\\', 'n']
  | '\r' => ['\\', 'r']
  | '\t' => ['\\', 't']
  | c =>
    if c.toNat < 0x20 then
      ['\\', 'u', '0', '0', hexDigit (c.toNat / 16), hexDigit (c.toNat % 16)]
    else [c]

/-- A text as it is written, the quotes left out. -/
def encode (text : List Char) : List Char :=
  text.flatMap encodeChar

/-- The character that a one-letter escape stands for. -/
def escape? : Char → Option Char
  | '"' => some '"'
  | '\\' => some '\\'
  | '/' => some '/'
  | 'b' => some '\x08'
  | 'f' => some '\x0c'
  | 'n' => some '\n'
  | 'r' => some '\r'
  | 't' => some '\t'
  | _ => none

/-- The value of a hexadecimal digit of either case. -/
def hexValue? (c : Char) : Option Nat :=
  if '0' ≤ c ∧ c ≤ '9' then some (c.toNat - '0'.toNat)
  else if 'a' ≤ c ∧ c ≤ 'f' then some (c.toNat - 'a'.toNat + 10)
  else if 'A' ≤ c ∧ c ≤ 'F' then some (c.toNat - 'A'.toNat + 10)
  else none

/-- The number that four hexadecimal digits stand for. -/
def hexUnit? (a b c d : Char) : Option Nat := do
  let a ← hexValue? a
  let b ← hexValue? b
  let c ← hexValue? c
  let d ← hexValue? d
  return ((a * 16 + b) * 16 + c) * 16 + d

def isHighSurrogate (u : Nat) : Bool :=
  decide (0xd800 ≤ u ∧ u < 0xdc00)

def isLowSurrogate (u : Nat) : Bool :=
  decide (0xdc00 ≤ u ∧ u < 0xe000)

/-- The character beyond the first plane that a pair of surrogates stands for. -/
def ofSurrogates (high low : Nat) : Char :=
  Char.ofNat (0x10000 + (high - 0xd800) * 0x400 + (low - 0xdc00))

/-- Reads on after an opening quote: the text up to the closing quote, and what follows it. -/
def read? : List Char → Option (List Char × List Char)
  | [] => none
  | '"' :: rest => some ([], rest)
  | '\\' :: 'u' :: a :: b :: c :: d :: rest =>
    match hexUnit? a b c d with
    | none => none
    | some high =>
      if isHighSurrogate high then
        match rest with
        | '\\' :: 'u' :: e :: f :: g :: h :: rest =>
          match hexUnit? e f g h with
          | none => none
          | some low =>
            if isLowSurrogate low then
              (read? rest).map fun (text, rest) => (ofSurrogates high low :: text, rest)
            else none
        | _ => none
      else if isLowSurrogate high then none
      else (read? rest).map fun (text, rest) => (Char.ofNat high :: text, rest)
  | '\\' :: e :: rest =>
    match escape? e with
    | none => none
    | some c => (read? rest).map fun (text, rest) => (c :: text, rest)
  | c :: rest =>
    if c.toNat < 0x20 then none
    else (read? rest).map fun (text, rest) => (c :: text, rest)

theorem hexUnit?_hexDigit : ∀ n < 32,
    hexUnit? '0' '0' (hexDigit (n / 16)) (hexDigit (n % 16)) = some n := by
  decide

/-- A written character is read back, whatever follows it. -/
theorem read?_encodeChar (c : Char) (rest : List Char) :
    read? (encodeChar c ++ rest) =
      (read? rest).map fun (text, rest) => (c :: text, rest) := by
  unfold encodeChar
  split
  all_goals try rfl
  rename_i hquote hslash _ _ _ _ _
  split
  · rename_i hcontrol
    have hhigh : isHighSurrogate c.toNat = false := by
      simp only [isHighSurrogate, decide_eq_false_iff_not]; omega
    have hlow : isLowSurrogate c.toNat = false := by
      simp only [isLowSurrogate, decide_eq_false_iff_not]; omega
    simp [read?, hexUnit?_hexDigit c.toNat hcontrol, hhigh, hlow, Char.ofNat_toNat]
  · rename_i hcontrol
    simp only [List.cons_append, List.nil_append]
    rw [read?.eq_def]
    split <;> grind

/-- A written text is read back up to its closing quote. -/
theorem read?_encode (text rest : List Char) :
    read? (encode text ++ '"' :: rest) = some (text, rest) := by
  induction text with
  | nil => rfl
  | cons c text ih =>
    rw [encode, List.flatMap_cons, List.append_assoc, read?_encodeChar, ← encode, ih]
    rfl

example : encode "\"\x01\x7f/".toList = "\\\"\\u0001\x7f/".toList := by decide +kernel

end ExprTree.Quoted
