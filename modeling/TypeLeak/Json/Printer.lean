import TypeLeak.Json.Value

/-! # Writing JSON

A value is written over several lines, with two blanks for each level.  In strings the double
quote, the backslash and the control characters are escaped, and everything else stands for
itself.  An empty list or object is written on one line.
-/

namespace TypeLeak.Json

/-- The hexadecimal digit of a number below sixteen. -/
def hexDigit (n : Nat) : Char := Nat.digitChar n

/-- How a character is written inside a string. -/
def escapeChar (c : Char) : List Char :=
  if c = '"' then ['\\', '"']
  else if c = '\\' then ['\\', '\\']
  else if c = '\x08' then ['\\', 'b']
  else if c = '\t' then ['\\', 't']
  else if c = '\n' then ['\\', 'n']
  else if c = '\x0c' then ['\\', 'f']
  else if c = '\r' then ['\\', 'r']
  else if c < ' ' then ['\\', 'u', '0', '0', hexDigit (c.toNat / 16), hexDigit (c.toNat % 16)]
  else [c]

/-- A string between quotes. -/
def writeString (s : String) : List Char := '"' :: s.toList.flatMap escapeChar ++ ['"']

/-- A line break and the blanks of a level. -/
def lineBreak (level : Nat) : List Char := '\n' :: List.replicate (2 * level) ' '

/-- Pieces on lines of their own, with commas between them. -/
def writeLines (level : Nat) : List (List Char) → List Char
  | [] => []
  | [piece] => lineBreak level ++ piece
  | piece :: pieces => lineBreak level ++ piece ++ ',' :: writeLines level pieces

mutual

/-- A value at a level. -/
def writeValue (level : Nat) : Value → List Char
  | .null => ['n', 'u', 'l', 'l']
  | .bool true => ['t', 'r', 'u', 'e']
  | .bool false => ['f', 'a', 'l', 's', 'e']
  | .number n => n.text.toList
  | .string s => writeString s
  | .array [] => ['[', ']']
  | .array (v :: vs) =>
    '[' :: writeLines (level + 1) (writeItems (level + 1) (v :: vs)) ++ lineBreak level ++ [']']
  | .object [] => ['{', '}']
  | .object (m :: ms) =>
    '{' :: writeLines (level + 1) (writeMembers (level + 1) (m :: ms)) ++ lineBreak level ++ ['}']

/-- The elements of a list. -/
def writeItems (level : Nat) : List Value → List (List Char)
  | [] => []
  | v :: vs => writeValue level v :: writeItems level vs

/-- The members of an object. -/
def writeMembers (level : Nat) : List (String × Value) → List (List Char)
  | [] => []
  | (key, v) :: ms =>
    (writeString key ++ ':' :: ' ' :: writeValue level v) :: writeMembers level ms

end

/-- The text of a value. -/
def Value.text (v : Value) : String := String.ofList (writeValue 0 v)

end TypeLeak.Json
