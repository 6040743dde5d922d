import TypeLeak.Layout
import TypeLeak.Shape
import TypeLeak.Json.Printer

/-! # Trace configurations

The compiler configuration of one trace extends the project's own and includes exactly the files
to trace.

* `encode_eq`   a configuration can always be written
-/

namespace TypeLeak

/-- A configuration for one trace. -/
structure CompilerConfig where
  extendsPath : String
  includes : List String
  deriving Repr, DecidableEq

namespace CompilerConfig

/-- The configuration that an object holds. -/
def decode (v : Json.Value) : Except Violation CompilerConfig := do
  let extendsPath ← Shape.field Shape.decodeText "extends" v
  let includes ← Shape.field Shape.decodeTexts "include" v
  let extendsPath ← Shape.require "extends" extendsPath
  let includes ← Shape.require "include" includes
  .ok ⟨extendsPath, includes⟩

/-- The configuration as an object. -/
def value (c : CompilerConfig) : Json.Value :=
  .object [("extends", .string c.extendsPath), ("include", .array (c.includes.map .string))]

/-- The text of the configuration file. -/
def json (c : CompilerConfig) : String := c.value.text

/-- The text of the configuration file, which is made only once the object that will be written
    has been checked. -/
def encode (c : CompilerConfig) : Except ShapeError String :=
  (Shape.validate decode Layout.checkConfigFile c.value).map json

/-- An object made from a configuration holds that configuration. -/
theorem decode_value (c : CompilerConfig) : decode c.value = .ok c := by
  have h : Shape.decodeTexts (.array (c.includes.map .string)) = .ok c.includes :=
    Shape.decodeTexts_eq_ok.2 rfl
  simp [decode, value, Shape.field, Json.Value.member?, List.lookup_cons, Shape.decodeText, h,
    Shape.require, bind, Except.bind, Except.map]

/-- The check before writing is always passed. -/
theorem encode_eq (c : CompilerConfig) : c.encode = .ok c.json := by
  have hcheck : Shape.validate decode Layout.checkConfigFile c.value = .ok c := by
    show (decode c.value).mapError _ = _
    rw [decode_value]
    rfl
  rw [encode, hcheck]
  rfl

end CompilerConfig

end TypeLeak
