import DialectBindings.Engine
import DialectBindings.Text.Blank
import DialectBindings.Text.Numeral

/-!
# Plain engines

One engine repeats its source, each line of which names a message, and one refuses every source.
They stand in for an engine when a batch is tried out.
-/

set_option autoImplicit false

namespace DialectBindings
open Text

/-- A message's number, name and magic number between colons; a dash stands for no magic number
and what follows a third colon does not count. -/
def MessageSummary.ofLine? (line : List Char) : Option MessageSummary :=
  match pieces ':' line with
  | id :: name :: magic :: _ => do
    let id ← word? (trim id)
    let magic ← if trim magic = ['-'] then pure none else (byte? (trim magic)).map some
    return ⟨id, String.ofList (trim name), magic⟩
  | _ => none

namespace Engine

def echo : Engine where
  generate source moduleName := do
    let lines := (Text.lines source.toList).filter fun line => !(trim line).isEmpty
    let messages ← lines.mapM fun line =>
      match MessageSummary.ofLine? line with
      | some m => .ok m
      | none => .error (EngineFault.invalidLine (String.ofList line))
    return {
      lines := ("// " ++ moduleName) :: lines.map String.ofList
      descriptors := ⟨[], [], messages⟩
      log := [] }

def refusing : Engine where
  generate _ _ := .error .unexpectedEnd

end Engine

end DialectBindings
