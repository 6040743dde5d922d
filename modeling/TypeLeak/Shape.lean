import TypeLeak.Json.Parser
import TypeLeak.Text.Quoted

/-! # The shape of documents

A document is a JSON object with fields of known kinds.  A decoder gives the content of a value or
the violation that keeps it from having one.  The fields of a document are looked at in the order
of their keys, and only when all that are present are right are the missing ones reported, so a
document has at most one violation.

* `bind_eq_ok`                                  two steps succeed if both do
* `bind_eq_error`                               two steps fail if one of them does
* `decodeTexts_eq_ok`, `decodeTextMap_eq_ok`   which values have a content, and which one
-/

namespace TypeLeak

/-- What a field is expected to hold. -/
inductive FieldKind where
  | text
  | list
  | mapping
  deriving Repr, DecidableEq

/-- What is expected, with its article. -/
def FieldKind.description : FieldKind → String
  | text => "a string"
  | list => "a sequence"
  | mapping => "a map"

/-- What is wrong with a document. -/
inductive Violation where
  | notJson (error : Json.TextError)
  | notObject (found : Json.Value)
  | wrongKind (found : Json.Value) (expected : FieldKind)
  | missing (key : String)
  deriving Repr

namespace Violation

/-- The kind of a value that should have been an object. -/
def describeKind : Json.Value → String
  | .null => "null"
  | .bool _ => "a boolean"
  | .number _ => "a number"
  | .string _ => "a string"
  | .array _ => "an array"
  | .object _ => "an object"

/-- A value in the place of another kind of value. -/
def describeValue : Json.Value → String
  | .null => "null"
  | .bool value => "boolean `" ++ toString value ++ "`"
  | .number (.integer value) => "integer `" ++ toString value ++ "`"
  | .number (.real value) => "floating point `" ++ value.text ++ "`"
  | .string value => "string " ++ Text.quote value
  | .array _ => "sequence"
  | .object _ => "map"

/-- What is said about a violation. -/
def message : Violation → String
  | notJson error => "not valid JSON: " ++ error.message
  | notObject found => "expected an object, found " ++ describeKind found
  | wrongKind found expected =>
    "invalid type: " ++ describeValue found ++ ", expected " ++ expected.description
  | missing key => "missing field `" ++ key ++ "`"

end Violation

/-- What is wrong with the document called `subject`. -/
structure ShapeError where
  subject : String
  violations : List String
  deriving Repr, DecidableEq

namespace ShapeError

/-- All violations in one line. -/
def summary (e : ShapeError) : String := "; ".intercalate e.violations

/-- The violations with the name of the document. -/
def message (e : ShapeError) : String := "Invalid " ++ e.subject ++ " format: " ++ e.summary

end ShapeError

/-- Two steps succeed if the first one does and so does the second one with what the first gave. -/
theorem bind_eq_ok {ε α β : Type} {x : Except ε α} {f : α → Except ε β} {b : β} :
    x >>= f = .ok b ↔ ∃ a, x = .ok a ∧ f a = .ok b := by
  cases x <;> simp [bind, Except.bind]

/-- Two steps fail if the first one does, or the second one does with what the first gave. -/
theorem bind_eq_error {ε α β : Type} {x : Except ε α} {f : α → Except ε β} {e : ε} :
    (x >>= f) = .error e ↔ x = .error e ∨ ∃ a, x = .ok a ∧ f a = .error e := by
  cases x <;> simp [bind, Except.bind]

namespace Shape

/-- A text. -/
def decodeText : Json.Value → Except Violation String
  | .string s => .ok s
  | v => .error (.wrongKind v .text)

/-- Texts up to the first value that is none. -/
def decodeTextItems : List Json.Value → Except Violation (List String)
  | [] => .ok []
  | v :: vs => do
    let text ← decodeText v
    let texts ← decodeTextItems vs
    .ok (text :: texts)

/-- A list of texts. -/
def decodeTexts : Json.Value → Except Violation (List String)
  | .array items => decodeTextItems items
  | v => .error (.wrongKind v .list)

/-- Keyed texts up to the first value that is none. -/
def decodeTextMembers : List (String × Json.Value) → Except Violation (List (String × String))
  | [] => .ok []
  | (key, v) :: ms => do
    let text ← decodeText v
    let texts ← decodeTextMembers ms
    .ok ((key, text) :: texts)

/-- A mapping to texts. -/
def decodeTextMap : Json.Value → Except Violation (List (String × String))
  | .object members => decodeTextMembers members
  | v => .error (.wrongKind v .mapping)

/-- The content of a member, if the object has it. -/
def field {α : Type} (decode : Json.Value → Except Violation α) (key : String) (v : Json.Value) :
    Except Violation (Option α) :=
  match v.member? key with
  | none => .ok none
  | some m => (decode m).map some

/-- The content of a member, if the object has it and it is not null. -/
def optionalField {α : Type} (decode : Json.Value → Except Violation α) (key : String)
    (v : Json.Value) : Except Violation (Option α) :=
  match v.member? key with
  | none => .ok none
  | some .null => .ok none
  | some m => (decode m).map some

/-- The content of a field that has to be there. -/
def require {α : Type} (key : String) : Option α → Except Violation α
  | none => .error (.missing key)
  | some a => .ok a

/-- The content of a value that has to be an object. -/
def validate {α : Type} (decode : Json.Value → Except Violation α) (subject : String)
    (v : Json.Value) : Except ShapeError α :=
  -- what is no object is refused before any of its members are looked at
  match v with
  | .object _ => (decode v).mapError fun violation => ⟨subject, [violation.message]⟩
  | _ => .error ⟨subject, [(Violation.notObject v).message]⟩

/-- The content of a text that has to write an object. -/
def parse {α : Type} (decode : Json.Value → Except Violation α) (subject content : String) :
    Except ShapeError α :=
  match Json.parse content with
  | .error e => .error ⟨subject, [(Violation.notJson e).message]⟩
  | .ok v => validate decode subject v

/-- Exactly the strings have a text as their content. -/
theorem decodeText_eq_ok {v : Json.Value} {s : String} :
    decodeText v = .ok s ↔ v = .string s := by
  cases v <;> simp [decodeText]

private theorem decodeTextItems_eq_ok {items : List Json.Value} {texts : List String} :
    decodeTextItems items = .ok texts ↔ items = texts.map Json.Value.string := by
  induction items generalizing texts with
  | nil => cases texts <;> simp [decodeTextItems]
  | cons v vs ih =>
    cases v with
    -- only a string has a text, and then the rest decides
    | string s =>
      cases h : decodeTextItems vs <;> cases texts <;>
        simp_all [decodeTextItems, decodeText, bind, Except.bind]
    | _ => cases texts <;> simp [decodeTextItems, decodeText, bind, Except.bind]

/-- Exactly the lists of strings have texts as their content. -/
theorem decodeTexts_eq_ok {v : Json.Value} {texts : List String} :
    decodeTexts v = .ok texts ↔ v = .array (texts.map Json.Value.string) := by
  cases v <;> simp [decodeTexts, decodeTextItems_eq_ok]

private theorem decodeTextMembers_eq_ok {members : List (String × Json.Value)}
    {texts : List (String × String)} :
    decodeTextMembers members = .ok texts ↔
      members = texts.map fun m => (m.1, Json.Value.string m.2) := by
  induction members generalizing texts with
  | nil => cases texts <;> simp [decodeTextMembers]
  | cons m ms ih =>
    obtain ⟨key, v⟩ := m
    cases v with
    -- as with items, but the key is kept
    | string s =>
      cases h : decodeTextMembers ms <;> cases texts <;>
        simp_all [decodeTextMembers, decodeText, bind, Except.bind, Prod.ext_iff]
    | _ => cases texts <;> simp [decodeTextMembers, decodeText, bind, Except.bind]

/-- Exactly the objects of strings have keyed texts as their content. -/
theorem decodeTextMap_eq_ok {v : Json.Value} {texts : List (String × String)} :
    decodeTextMap v = .ok texts ↔
      v = .object (texts.map fun m => (m.1, Json.Value.string m.2)) := by
  cases v <;> simp [decodeTextMap, decodeTextMembers_eq_ok]

end Shape

end TypeLeak
