import TypeLeak.Text.Blank
import TypeLeak.Text.Utf8

/-! # Texts of the operating system

The operating system names files by bytes, which are UTF-8 by custom only.  A text for it keeps the
bytes; a `String` stands for its UTF-8 form.  What is not UTF-8 can be shown, and be put where a
`String` is needed, only with loss: each part that is no character is written as U+FFFD, so that
different texts can come to look the same.

The slash is the one byte that divides a text, into *segments*.

* `bytes_append`, `bytes_ofSegments`   the bytes of texts put together
-/

namespace TypeLeak

/-- A text of the operating system. -/
structure OsText where
  bytes : List UInt8
  deriving Repr, DecidableEq

namespace OsText

/-- The UTF-8 form of a text. -/
def ofString (s : String) : OsText := ⟨Text.Utf8.encode s⟩

instance : Coe String OsText := ⟨ofString⟩

/-- The text to be shown, with U+FFFD for each part that is not UTF-8. -/
def lossy (t : OsText) : String := Text.Utf8.decodeLossy t.bytes

/-- How many bytes a text has. -/
def size (t : OsText) : Nat := t.bytes.length

/-- The byte of a slash. -/
def slashByte : UInt8 := 0x2F

/-- The byte of a dot. -/
def dotByte : UInt8 := 0x2E

/-- Nothing. -/
@[match_pattern] def empty : OsText := ⟨[]⟩

/-- One dot. -/
@[match_pattern] def dot : OsText := ⟨[0x2E]⟩

/-- Two dots. -/
def dots : OsText := ⟨[0x2E, 0x2E]⟩

/-- One slash. -/
def slash : OsText := ⟨[0x2F]⟩

instance : Append OsText := ⟨fun s t => ⟨s.bytes ++ t.bytes⟩⟩

instance : LT OsText := ⟨fun s t => s.bytes < t.bytes⟩

instance : LE OsText := ⟨fun s t => s.bytes ≤ t.bytes⟩

instance (s t : OsText) : Decidable (s < t) := inferInstanceAs (Decidable (s.bytes < t.bytes))

instance (s t : OsText) : Decidable (s ≤ t) := inferInstanceAs (Decidable (s.bytes ≤ t.bytes))

/-- The pieces between the slashes of a text, empty ones included. -/
def segments (t : OsText) : List OsText := (Text.cut (· == slashByte) t.bytes).map mk

/-- Pieces with a slash between any two of them. -/
def ofSegments (pieces : List OsText) : OsText := ⟨[slashByte].intercalate (pieces.map bytes)⟩

/-- A text is its bytes. -/
@[ext] theorem ext {s t : OsText} (h : s.bytes = t.bytes) : s = t := by
  cases s
  cases t
  exact congrArg mk h

/-- Texts put together have the bytes of the one and then those of the other. -/
@[simp] theorem bytes_append (s t : OsText) : (s ++ t).bytes = s.bytes ++ t.bytes := rfl

@[simp] theorem bytes_empty : empty.bytes = [] := rfl

@[simp] theorem bytes_dot : dot.bytes = [0x2E] := rfl

@[simp] theorem bytes_dots : dots.bytes = [0x2E, 0x2E] := rfl

@[simp] theorem bytes_slash : slash.bytes = [slashByte] := rfl

/-- Pieces put together have a slash's byte between any two of them. -/
@[simp] theorem bytes_ofSegments (pieces : List OsText) :
    (ofSegments pieces).bytes = [slashByte].intercalate (pieces.map bytes) := rfl

/-- Nothing may be put behind a text. -/
@[simp] theorem append_empty (t : OsText) : t ++ empty = t := ext (List.append_nil _)

/-- Nor does anything change in front of it. -/
@[simp] theorem empty_append (t : OsText) : empty ++ t = t := rfl

/-- Texts may be put together in any grouping. -/
theorem append_assoc (s t u : OsText) : s ++ t ++ u = s ++ (t ++ u) := ext (List.append_assoc ..)

/-- Sizes add up. -/
@[simp] theorem size_append (s t : OsText) : (s ++ t).size = s.size + t.size := List.length_append

@[simp] theorem size_slash : slash.size = 1 := rfl

/-- The special texts differ from one another; these are the cases that paths tell apart. -/
@[simp] theorem slash_ne_empty : slash ≠ empty := by decide

@[simp] theorem dot_ne_empty : dot ≠ empty := by decide

@[simp] theorem dots_ne_empty : dots ≠ empty := by decide

@[simp] theorem dots_ne_dot : dots ≠ dot := by decide

/-- Only texts with nothing in them make nothing together. -/
@[simp] theorem append_eq_empty {s t : OsText} : s ++ t = empty ↔ s = empty ∧ t = empty := by
  obtain ⟨a⟩ := s
  obtain ⟨b⟩ := t
  show mk (a ++ b) = mk [] ↔ mk a = mk [] ∧ mk b = mk []
  simp

end OsText

end TypeLeak
