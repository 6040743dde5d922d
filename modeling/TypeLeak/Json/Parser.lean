import TypeLeak.Json.Value

/-! # Reading JSON

A reader takes the characters that are left and gives a result and what is left after it, or a
fault.  A fault keeps the characters left where it was found, so that its place in the text can be
computed afterwards; places are counted in bytes of the text's UTF-8 form.

The value reader recurses on the number of brackets that may still be opened.  Inside one pair of
brackets, and inside a string, the number of characters left bounds the number of steps.

* `skipBlank_append`   blanks before a text do not matter
-/

namespace TypeLeak.Json

/-- What is wrong with a text. -/
inductive Problem where
  | endInValue
  | endInList
  | endInObject
  | endInString
  | noValue
  | noIdent
  | noColon
  | noListEnd
  | noObjectEnd
  | trailingComma
  | keyNotString
  | trailingCharacters
  | tooDeep
  | controlCharacter
  | invalidEscape
  | endOfHexEscape
  | loneSurrogate
  | invalidNumber
  | numberTooLarge
  deriving Repr, DecidableEq

namespace Problem

/-- What is said about a problem, without its place. -/
def message : Problem → String
  | endInValue => "EOF while parsing a value"
  | endInList => "EOF while parsing a list"
  | endInObject => "EOF while parsing an object"
  | endInString => "EOF while parsing a string"
  | noValue => "expected value"
  | noIdent => "expected ident"
  | noColon => "expected `:`"
  | noListEnd => "expected `,` or `]`"
  | noObjectEnd => "expected `,` or `\x7d`"
  | trailingComma => "trailing comma"
  | keyNotString => "key must be a string"
  | trailingCharacters => "trailing characters"
  | tooDeep => "recursion limit exceeded"
  | controlCharacter => "control character (\\u0000-\\u001F) found while parsing a string"
  | invalidEscape => "invalid escape"
  | endOfHexEscape => "unexpected end of hex escape"
  | loneSurrogate => "lone leading surrogate in hex escape"
  | invalidNumber => "invalid number"
  | numberTooLarge => "number out of range"

end Problem

/-- A problem, the characters left where it was found, and how many bytes of them belong to it. -/
structure Fault where
  problem : Problem
  rest : List Char
  ahead : Nat
  deriving Repr, DecidableEq

/-- A result and the characters left after it. -/
abbrev WithRest (α : Type) := α × List Char

/-- A reader of values. -/
abbrev ValueReader := List Char → Except Fault (WithRest Value)

/-- A fault before the characters left. -/
def failBefore {α : Type} (problem : Problem) (rest : List Char) : Except Fault α :=
  .error ⟨problem, rest, 0⟩

/-- A fault that includes the next byte. -/
def failOnNext {α : Type} (problem : Problem) (rest : List Char) : Except Fault α :=
  .error ⟨problem, rest, 1⟩

/-- A fault on the next byte, or another one if nothing is left. -/
def failOnNextOr {α : Type} (atEnd problem : Problem) (rest : List Char) : Except Fault α :=
  if rest = [] then failBefore atEnd [] else failOnNext problem rest

/-- The blanks between tokens. -/
def isGap (c : Char) : Bool := c == ' ' || c == '\t' || c == '\n' || c == '\r'

/-- The text from its first character that is no gap. -/
def skipBlank (cs : List Char) : List Char := cs.dropWhile isGap

/-- Blanks before a text do not matter. -/
theorem skipBlank_append {gap : List Char} (h : ∀ c ∈ gap, isGap c = true) (cs : List Char) :
    skipBlank (gap ++ cs) = skipBlank cs := by
  induction gap with
  | nil => rfl
  | cons c gap ih =>
    have hc := h c (by simp)
    simp only [skipBlank, List.cons_append, List.dropWhile_cons, hc, if_true] at ih ⊢
    exact ih fun x hx => h x (by simp [hx])

/-- The rest of a word that stands for a value. -/
def readWord (value : Value) : List Char → List Char → Except Fault (WithRest Value)
  | [], cs => .ok (value, cs)
  | _ :: _, [] => failBefore .endInValue []
  | w :: word, c :: cs =>
    if c = w then readWord value word cs else failOnNext .noIdent (c :: cs)

/-! ## Strings -/

/-- The value of a hexadecimal digit. -/
def hexValue (c : Char) : Option Nat :=
  if '0' ≤ c ∧ c ≤ '9' then some (c.toNat - '0'.toNat)
  else if 'a' ≤ c ∧ c ≤ 'f' then some (c.toNat - 'a'.toNat + 10)
  else if 'A' ≤ c ∧ c ≤ 'F' then some (c.toNat - 'A'.toNat + 10)
  else none

/-- How many bytes characters take. -/
def byteCount (cs : List Char) : Nat := cs.foldr (fun c n => c.utf8Size + n) 0

/-- Four hexadecimal digits.  Anything else in the next four bytes is one fault. -/
def readHexFour (cs : List Char) : Except Fault (WithRest Nat) :=
  match cs with
  | a :: b :: c :: d :: rest =>
    match hexValue a, hexValue b, hexValue c, hexValue d with
    | some a, some b, some c, some d => .ok (((a * 16 + b) * 16 + c) * 16 + d, rest)
    | _, _, _, _ => .error ⟨.invalidEscape, cs, 4⟩
  -- four bytes are needed, and fewer than four characters can have them
  | _ => if byteCount cs < 4 then failBefore .endInString [] else .error ⟨.invalidEscape, cs, 4⟩

/-- The character of a unicode escape.  Characters beyond the first plane are written as two
    escapes, a high and a low half. -/
def readUnicode (cs : List Char) : Except Fault (WithRest Char) := do
  let (first, rest) ← readHexFour cs
  -- a low half without its high one
  if 0xDC00 ≤ first ∧ first ≤ 0xDFFF then failBefore .loneSurrogate rest
  else if 0xD800 ≤ first ∧ first ≤ 0xDBFF then
    match rest with
    | [] => failBefore .endInString []
    | '\\' :: [] => failBefore .endInString []
    | '\\' :: 'u' :: rest =>
      let (second, rest) ← readHexFour rest
      -- both halves have ten bits each of what is beyond the first plane
      if 0xDC00 ≤ second ∧ second ≤ 0xDFFF then
        .ok (Char.ofNat ((first - 0xD800) * 0x400 + (second - 0xDC00) + 0x10000), rest)
      else failBefore .loneSurrogate rest
    | '\\' :: rest => failOnNext .endOfHexEscape rest
    | rest => failOnNext .endOfHexEscape rest
  else .ok (Char.ofNat first, rest)

/-- The character that an escape stands for, after its backslash. -/
def readEscape : List Char → Except Fault (WithRest Char)
  | [] => failBefore .endInString []
  | '"' :: cs => .ok ('"', cs)
  | '\\' :: cs => .ok ('\\', cs)
  | '/' :: cs => .ok ('/', cs)
  | 'b' :: cs => .ok ('\x08', cs)
  | 'f' :: cs => .ok ('\x0c', cs)
  | 'n' :: cs => .ok ('\n', cs)
  | 'r' :: cs => .ok ('\r', cs)
  | 't' :: cs => .ok ('\t', cs)
  | 'u' :: cs => readUnicode cs
  | cs => failOnNext .invalidEscape cs

/-- The rest of a string after its opening quote, in at most `fuel` characters. -/
def readStringBody : (fuel : Nat) → List Char → Except Fault (WithRest (List Char))
  -- never reached with the fuel that `readString` gives
  | 0, _ => failBefore .endInString []
  | _ + 1, [] => failBefore .endInString []
  | _ + 1, '"' :: cs => .ok ([], cs)
  | fuel + 1, '\\' :: cs => do
    let (c, rest) ← readEscape cs
    let (text, rest) ← readStringBody fuel rest
    .ok (c :: text, rest)
  | fuel + 1, c :: cs =>
    if c < ' ' then failOnNext .controlCharacter (c :: cs)
    else do
      let (text, rest) ← readStringBody fuel cs
      .ok (c :: text, rest)

/-- The rest of a string after its opening quote. -/
def readString (cs : List Char) : Except Fault (WithRest String) := do
  let (text, rest) ← readStringBody (cs.length + 1) cs
  .ok (String.ofList text, rest)

/-! ## Numbers -/

/-- The value of a decimal digit. -/
def digitValue (c : Char) : Nat := c.toNat - '0'.toNat

/-- The greatest number of digits' worth that is kept exactly. -/
def maxDigits : Nat := Magnitude.twoTo 64 - 1

/-- The greatest exponent that is looked at. -/
def maxExponent : Nat := Magnitude.twoTo 31 - 1

/-- Digits taken into a number as long as it stays in range. -/
def takeDigits (n : Nat) : List Char → Nat × List Char
  | [] => (n, [])
  | c :: cs =>
    -- digits that no longer fit are left behind, to be counted
    if c.isDigit ∧ n * 10 + digitValue c ≤ maxDigits then takeDigits (n * 10 + digitValue c) cs
    else (n, c :: cs)

/-- The digits of an exponent, or what is left after the digit that takes it out of range. -/
def takeExponent (n : Nat) : List Char → Except (List Char) (Nat × List Char)
  | [] => .ok (n, [])
  | c :: cs =>
    if c.isDigit then
      if maxExponent < n * 10 + digitValue c then .error cs
      else takeExponent (n * 10 + digitValue c) cs
    else .ok (n, c :: cs)

/-- The text from its first character that is no digit. -/
def skipDigits (cs : List Char) : List Char := cs.dropWhile Char.isDigit

/-- The number with the given digits and power of ten. -/
def finishReal (negative : Bool) (digits : Nat) (exponent : Int) (rest : List Char) :
    Except Fault (WithRest Number) :=
  match Magnitude.ofDecimal digits exponent with
  | some magnitude => .ok (.real ⟨negative, magnitude⟩, rest)
  | none => failBefore .numberTooLarge rest

/-- The rest of a number after the letter of its exponent. -/
def readExponent (negative : Bool) (digits : Nat) (start : Int) (cs : List Char) :
    Except Fault (WithRest Number) :=
  -- a sign may be missing
  let (down, cs) :=
    match cs with
    | '+' :: cs => (false, cs)
    | '-' :: cs => (true, cs)
    | cs => (false, cs)
  if (cs.head?.map Char.isDigit).getD false then
    match takeExponent 0 cs with
    | .ok (n, rest) => finishReal negative digits (if down then start - n else start + n) rest
    | .error rest =>
      -- an exponent out of range is harmless downwards, and of zero
      if digits ≠ 0 ∧ !down then failBefore .numberTooLarge rest
      else .ok (.real ⟨negative, .zero⟩, skipDigits rest)
  else failOnNextOr .endInValue .invalidNumber cs

/-- The rest of a number after the digits that count. -/
def readTail (negative : Bool) (digits : Nat) (exponent : Int) (cs : List Char) :
    Except Fault (WithRest Number) :=
  match cs with
  | 'e' :: cs => readExponent negative digits exponent cs
  | 'E' :: cs => readExponent negative digits exponent cs
  | cs => finishReal negative digits exponent cs

/-- The rest of a number after its point. -/
def readFraction (negative : Bool) (digits : Nat) (exponent : Int) (cs : List Char) :
    Except Fault (WithRest Number) :=
  let (digits, rest) := takeDigits digits cs
  -- each digit that was taken counts one down in the exponent
  let count := cs.length - rest.length
  if (cs.head?.map Char.isDigit).getD false then
    readTail negative digits (exponent - count) (skipDigits rest)
  else failOnNextOr .endInValue .invalidNumber cs

/-- A number after its sign. -/
def readNumber (negative : Bool) (cs : List Char) : Except Fault (WithRest Number) :=
  match cs with
  | [] => failBefore .endInValue []
  | c :: tail =>
    if !c.isDigit then failOnNext .invalidNumber cs
    -- a zero may not lead other digits
    else if c = '0' ∧ (tail.head?.map Char.isDigit).getD false then failOnNext .invalidNumber tail
    else
      let (digits, rest) := takeDigits 0 cs
      -- digits that were not taken count in the exponent instead
      let extra := (rest.takeWhile Char.isDigit).length
      match skipDigits rest with
      | '.' :: rest => readFraction negative digits extra rest
      | 'e' :: rest => readExponent negative digits extra rest
      | 'E' :: rest => readExponent negative digits extra rest
      | rest =>
        if extra ≠ 0 then finishReal negative digits extra rest
        else if !negative then .ok (.integer digits, rest)
        -- minus zero is no integer, nor is what does not fit into 64 bits
        else if digits ≠ 0 ∧ digits ≤ Magnitude.twoTo 63 then .ok (.integer (-digits), rest)
        else finishReal true digits 0 rest

/-! ## Lists, objects and values -/

/-- The elements of a list, the first of which begins here, and its closing bracket. -/
def readItems (element : ValueReader) :
    (fuel : Nat) → List Char → Except Fault (WithRest (List Value))
  | 0, _ => failBefore .endInList []
  | fuel + 1, cs => do
    let (v, rest) ← element cs
    match skipBlank rest with
    | [] => failBefore .endInList []
    | ']' :: rest => .ok ([v], rest)
    | ',' :: rest =>
      match skipBlank rest with
      | [] => failBefore .endInValue []
      -- a bracket right behind a comma
      | ']' :: rest => failOnNext .trailingComma (']' :: rest)
      | next => do
        let (vs, rest) ← readItems element fuel next
        .ok (v :: vs, rest)
    | rest => failOnNext .noListEnd rest

/-- A list after its opening bracket. -/
def readList (element : ValueReader) (cs : List Char) : Except Fault (WithRest Value) :=
  match skipBlank cs with
  | [] => failBefore .endInList []
  | ']' :: rest => .ok (.array [], rest)
  | next => do
    let (vs, rest) ← readItems element (next.length + 1) next
    .ok (.array vs, rest)

/-- A key and its colon. -/
def readKey : List Char → Except Fault (WithRest String)
  | '"' :: cs => do
    let (key, rest) ← readString cs
    match skipBlank rest with
    | [] => failBefore .endInObject []
    | ':' :: rest => .ok (key, rest)
    | rest => failOnNext .noColon rest
  | cs => failOnNext .keyNotString cs

/-- The members of an object, the first of which begins here, and its closing bracket. -/
def readMembers (element : ValueReader) :
    (fuel : Nat) → List Char → Except Fault (WithRest (List (String × Value)))
  | 0, _ => failBefore .endInObject []
  | fuel + 1, cs => do
    let (key, rest) ← readKey cs
    let (v, rest) ← element rest
    match skipBlank rest with
    | [] => failBefore .endInObject []
    | '}' :: rest => .ok ([(key, v)], rest)
    | ',' :: rest =>
      match skipBlank rest with
      | [] => failBefore .endInValue []
      | '}' :: rest => failOnNext .trailingComma ('}' :: rest)
      | next => do
        let (ms, rest) ← readMembers element fuel next
        .ok ((key, v) :: ms, rest)
    | rest => failOnNext .noObjectEnd rest

/-- An object after its opening bracket. -/
def readObject (element : ValueReader) (cs : List Char) : Except Fault (WithRest Value) :=
  match skipBlank cs with
  | [] => failBefore .endInObject []
  | '}' :: rest => .ok (.object [], rest)
  | next => do
    let (ms, rest) ← readMembers element (next.length + 1) next
    .ok (Value.ofMembers ms, rest)

/-- A value that is no list or object. -/
def readScalar : ValueReader
  | [] => failBefore .endInValue []
  | 'n' :: cs => readWord .null ['u', 'l', 'l'] cs
  | 't' :: cs => readWord (.bool true) ['r', 'u', 'e'] cs
  | 'f' :: cs => readWord (.bool false) ['a', 'l', 's', 'e'] cs
  | '"' :: cs => do
    let (text, rest) ← readString cs
    .ok (.string text, rest)
  | '-' :: cs => do
    let (n, rest) ← readNumber true cs
    .ok (.number n, rest)
  | cs =>
    if (cs.head?.map Char.isDigit).getD false then do
      let (n, rest) ← readNumber false cs
      .ok (.number n, rest)
    else failOnNext .noValue cs

/-- A value in which at most `depth` brackets are open at a time. -/
def readValue : (depth : Nat) → ValueReader
  | depth, cs =>
    match skipBlank cs, depth with
    -- no more brackets may be opened
    | '[' :: rest, 0 => failOnNext .tooDeep ('[' :: rest)
    | '{' :: rest, 0 => failOnNext .tooDeep ('{' :: rest)
    | '[' :: rest, depth + 1 => readList (readValue depth) rest
    | '{' :: rest, depth + 1 => readObject (readValue depth) rest
    | rest, _ => readScalar rest

/-- How many brackets may be open at a time. -/
def maxDepth : Nat := 127

/-- A value and nothing but blanks after it. -/
def readText (cs : List Char) : Except Fault Value := do
  let (v, rest) ← readValue maxDepth cs
  match skipBlank rest with
  | [] => .ok v
  | rest => failOnNext .trailingCharacters rest

/-! ## Places -/

/-- A place in a text: its line, from one, and the number of bytes before it on that line. -/
structure Position where
  line : Nat
  column : Nat
  deriving Repr, DecidableEq

/-- The place `offset` bytes behind a place, or the end of the text. -/
def locate (place : Position) (offset : Nat) : List Char → Position
  | [] => place
  | c :: cs =>
    if offset = 0 then place
    else if c = '\n' then locate ⟨place.line + 1, 0⟩ (offset - 1) cs
    -- a place within a character is that many bytes into it
    else if c.utf8Size ≤ offset then
      locate ⟨place.line, place.column + c.utf8Size⟩ (offset - c.utf8Size) cs
    else ⟨place.line, place.column + offset⟩

/-- A problem and its place. -/
structure TextError where
  problem : Problem
  position : Position
  deriving Repr, DecidableEq

/-- The problem and the place of a fault in a text. -/
def Fault.inText (f : Fault) (cs : List Char) : TextError :=
  ⟨f.problem, locate ⟨1, 0⟩ (byteCount cs - byteCount f.rest + f.ahead) cs⟩

/-- The problem and its place. -/
def TextError.message (e : TextError) : String :=
  e.problem.message ++ " at line " ++ toString e.position.line ++
    " column " ++ toString e.position.column

/-- The value that a text writes. -/
def parse (text : String) : Except TextError Value :=
  match readText text.toList with
  | .ok v => .ok v
  | .error f => .error (f.inText text.toList)

end TypeLeak.Json
