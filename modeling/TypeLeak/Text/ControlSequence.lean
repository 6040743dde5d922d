import TypeLeak.Text.Utf8

/-! # Text without control sequences

A terminal takes the bytes after an escape character as a command, up to the byte that ends it.
Text that comes from outside is shown without such sequences and without the other control
characters, so that it cannot give commands; the blanks among them, such as the line feed, stay.

The bytes are read by a machine that knows in which kind of sequence it is.  A blank in the middle
of a sequence is shown, and what follows it depends on the filter: either the sequence is given up
there, or it is suspended and goes on at the next byte that is not shown.
-/

namespace TypeLeak.Text.ControlSequence

/-- What a terminal is reading. -/
inductive Reading where
  | text
  /-- the byte after an escape character -/
  | escape
  /-- the bytes between an escape character and the letter that ends the sequence -/
  | intermediate
  /-- the parameters of a control sequence -/
  | parameters
  /-- the parameters before a device control string -/
  | deviceParameters
  /-- a string for the device, which an escape character ends -/
  | deviceString
  /-- a string for the operating system, which a bell ends too -/
  | systemString
  deriving Repr, DecidableEq

namespace Reading

/-- What is being read after a byte that is not shown. -/
def next (r : Reading) (b : UInt8) : Reading :=
  -- wherever a sequence is, an escape begins another one, and a cancel ends it
  if b = 0x1b then .escape
  else if b = 0x18 ∨ b = 0x1a then .text
  else
    match r with
    | .text => .text
    | .escape =>
      if b = 0x5b then .parameters
      else if b = 0x5d then .systemString
      else if b = 0x50 then .deviceParameters
      else if b = 0x58 ∨ b = 0x5e ∨ b = 0x5f then .deviceString
      else if 0x20 ≤ b ∧ b ≤ 0x2f then .intermediate
      else if 0x30 ≤ b ∧ b ≤ 0x7e then .text
      else .escape
    | .intermediate => if 0x30 ≤ b ∧ b ≤ 0x7e then .text else .intermediate
    | .parameters => if 0x40 ≤ b ∧ b ≤ 0x7e then .text else .parameters
    | .deviceParameters => if 0x40 ≤ b ∧ b ≤ 0x7e then .deviceString else .deviceParameters
    | .deviceString => if b = 0x9c then .text else .deviceString
    | .systemString => if b = 0x07 then .text else .systemString

/-- Blanks are shown here. -/
def showsBlanks : Reading → Bool
  | .text | .escape | .intermediate | .parameters => true
  | .deviceParameters | .deviceString | .systemString => false

/-- A byte is shown: in text every printable one and every first byte of a character, and, except
    in strings, a tab, a line feed, a form feed or a carriage return. -/
def shows (r : Reading) (b : UInt8) : Bool :=
  if b = 0x09 ∨ b = 0x0a ∨ b = 0x0c ∨ b = 0x0d then r.showsBlanks
  else r = .text && ((0x20 ≤ b && b ≤ 0x7e) || (0xc2 ≤ b && b ≤ 0xf4))

end Reading

/-- How a filter goes on where a sequence and something to show meet. -/
structure Filter where
  /-- a blank only suspends the sequence that it stands in -/
  suspends : Bool
  /-- the bytes of a character after the first are shown even in a sequence -/
  keepsTails : Bool
  deriving Repr, DecidableEq

namespace Filter

/-- For a text as a whole. -/
def forText : Filter := ⟨false, true⟩

/-- For an output stream. -/
def forStream : Filter := ⟨true, false⟩

end Filter

/-- How far a filter has come: what is being read, and whether the last byte was shown. -/
structure Scanner where
  reading : Reading
  showing : Bool
  deriving Repr, DecidableEq

namespace Scanner

/-- Nothing has been read yet. -/
def start : Scanner := ⟨.text, false⟩

/-- The next byte is shown. -/
def shows (f : Filter) (s : Scanner) (b : UInt8) : Bool :=
  (if s.showing then Reading.text else s.reading).shows b ||
    ((0x80 ≤ b && b ≤ 0xbf) && (f.keepsTails || s.showing))

/-- The scanner after the next byte. -/
def next (f : Filter) (s : Scanner) (b : UInt8) : Scanner :=
  if s.shows f b then ⟨if f.suspends && b < 0x80 then s.reading else .text, true⟩
  else ⟨s.reading.next b, false⟩

/-- The bytes that are shown. -/
def keep (f : Filter) : Scanner → List UInt8 → List UInt8
  | _, [] => []
  | s, b :: bs => if s.shows f b then b :: keep f (s.next f b) bs else keep f (s.next f b) bs

end Scanner

/-- A text without its control sequences. -/
def strip (f : Filter) (text : String) : String :=
  Utf8.decodeLossy (Scanner.keep f .start (Utf8.encode text))

end TypeLeak.Text.ControlSequence
