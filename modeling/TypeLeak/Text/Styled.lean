/-! # Styled text

The report is a sequence of spans, each plain or in one of a few terminal styles.  Whether the
styles show is decided only when spans are rendered: without colour a rendering is the plain
text, and with colour a styled span stands between its opening code and the reset code.  A reset
code inside a styled text would end the style too early, so the opening code is written again
after it.
-/

namespace TypeLeak.Text

/-- A terminal style: the numbers of its opening code. -/
structure Style where
  codes : List Nat
  deriving Repr, DecidableEq

namespace Style

/-- Faint text, for marks that carry no news. -/
def dimmed : Style := ⟨[2]⟩

/-- Yellow text, for advice. -/
def yellow : Style := ⟨[33]⟩

/-- Blue text, for names. -/
def blue : Style := ⟨[34]⟩

/-- Cyan text, for what is to be noticed. -/
def cyan : Style := ⟨[36]⟩

/-- Bright blue text, for the closing mark. -/
def brightBlue : Style := ⟨[94]⟩

/-- Bold red text, for what went wrong. -/
def boldRed : Style := ⟨[1, 31]⟩

/-- Bold green text, for what went well. -/
def boldGreen : Style := ⟨[1, 32]⟩

/-- Bold yellow text, for what may be amiss. -/
def boldYellow : Style := ⟨[1, 33]⟩

/-- The code that switches the style on. -/
def opening (s : Style) : List Char :=
  '\x1b' :: '[' :: (";".intercalate (s.codes.map toString)).toList ++ ['m']

/-- The code that switches every style off. -/
def reset : List Char := ['\x1b', '[', '0', 'm']

/-- A text with `code` written after each reset code in it. -/
def reopen (code : List Char) : List Char → List Char
  | '\x1b' :: '[' :: '0' :: 'm' :: cs => reset ++ code ++ reopen code cs
  | c :: cs => c :: reopen code cs
  | [] => []

end Style

/-- A piece of text in one style, or in none. -/
structure Span where
  style : Option Style
  text : String
  deriving Repr, DecidableEq

namespace Span

/-- A text in no style. -/
def plain (text : String) : Span := ⟨none, text⟩

/-- A text in a style. -/
def styled (style : Style) (text : String) : Span := ⟨some style, text⟩

/-- The characters of a span, with its codes if colour is on. -/
def chars (colour : Bool) (s : Span) : List Char :=
  match colour, s.style with
  | true, some style => style.opening ++ Style.reopen style.opening s.text.toList ++ Style.reset
  | _, _ => s.text.toList

end Span

/-- The text of a sequence of spans. -/
def render (colour : Bool) (spans : List Span) : String :=
  String.ofList (spans.flatMap (Span.chars colour))

theorem render_append (colour : Bool) (xs ys : List Span) :
    render colour (xs ++ ys) = render colour xs ++ render colour ys := by
  simp [render, String.ofList_append]

/-- Without colour only the texts remain. -/
theorem chars_false (s : Span) : s.chars false = s.text.toList := by
  cases s with
  | mk style text => cases style <;> rfl

end TypeLeak.Text
