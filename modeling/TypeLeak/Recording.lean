import TypeLeak.FileTree.Snapshot
import TypeLeak.Json.Parser
import TypeLeak.Toolchain

/-! # Recorded projects

A recording is a JSON object from which a check can be replayed: the entries of a file tree, the
current directory, and the answer of the compiler.  Contents are given as text or as hexadecimal
digits.
-/

namespace TypeLeak.Recording

open Json (Value)

/-- A text member, or another text. -/
def textOr (other key : String) (v : Value) : String :=
  match v.member? key with
  | some (.string s) => s
  | _ => other

/-- A member is there and true. -/
def isTrue (key : String) (v : Value) : Bool :=
  match v.member? key with
  | some (.bool b) => b
  | _ => false

/-- The elements of a list member. -/
def items (key : String) (v : Value) : List Value :=
  match v.member? key with
  | some (.array vs) => vs
  | _ => []

/-- The bytes that pairs of hexadecimal digits write. -/
def hexBytes : List Char → List UInt8
  | a :: b :: rest =>
    match Json.hexValue a, Json.hexValue b with
    | some a, some b => UInt8.ofNat (a * 16 + b) :: hexBytes rest
    | _, _ => hexBytes rest
  | _ => []

/-- The bytes that a member gives as text, or another one as hexadecimal digits. -/
def bytes (key : String) (v : Value) : List UInt8 :=
  match v.member? (key ++ "_hex") with
  | some (.string digits) => hexBytes digits.toList
  | _ => Text.Utf8.encode (textOr "" key v)

/-- The entry that an object describes. -/
def entry (v : Value) : Entry :=
  if isTrue "dir" v then .directory
  else
    match v.member? "link" with
    | some (.string target) => .link ⟨target⟩
    | _ => .file (bytes "text" v) (isTrue "exec" v)

/-- The world with the entry that an object describes. -/
def plant (w : World) (v : Value) : World := w.plant ⟨textOr "" "path" v⟩ (entry v)

/-- How a program ended, as an object describes it. -/
def status (v : Value) : ExitStatus :=
  if isTrue "kill" v then .signal
  else
    match v.member? "exit" with
    | some (.number (.integer code)) => .code (code % 256).toNat
    | _ => .code 0

/-- A recorded program that ends as an object describes.  It can remove the file that its last
    argument names. -/
def answer (v : Value) (i : Invocation) (t : FileTree) : Finished :=
  let left :=
    match i.args.getLast? with
    | some file =>
      if isTrue "delete_config" v then ((World.inside t i.dir).unlink ⟨file⟩).toOption else none
    | none => none
  ⟨bytes "stdout" v, bytes "stderr" v, status v, (left.map World.tree).getD t⟩

/-- The recorded world: the entries from the root on, seen from the recorded directory. -/
def world (v : Value) : World :=
  let planted := (items "tree" v).foldl plant (.inside .empty [])
  match planted.directory ⟨textOr "/" "cwd" v⟩ with
  | .ok dir => { planted with cwd := .inside dir }
  | .error _ => planted

/-- The recorded compiler. -/
def toolchain (v : Value) : Toolchain := fun i t =>
  .ok (answer ((v.member? "compiler").getD .null) i t)

end TypeLeak.Recording
