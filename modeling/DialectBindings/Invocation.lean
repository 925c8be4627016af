import DialectBindings.Host
import DialectBindings.Layout
import DialectBindings.LineBuffer

/-!
# Invocations

One run of an engine on one definition file. The file's template, if there is one, is the first
line of the result, whatever lines it has itself. Nothing is written.
-/

set_option autoImplicit false

namespace DialectBindings
open Text

structure Invocation where
  moduleName : String
  lines : List String
  descriptors : Descriptors
  deriving Repr, DecidableEq

namespace Invocation

def code (i : Invocation) : String := "\n".intercalate i.lines ++ "\n"

variable {m : Type → Type} [Monad m] [Host m]

def readDefinition (file : Path) : Host.Step m String := do
  let data ← Host.orFail (Host.read file) (.read file)
  Host.orFail (pure ((decode data).mapError fun _ => .notText)) (.read file)

/-- A template that is missing is no failure. -/
def readTemplate (path : Path) : Host.Step m (Option String) := do
  let answer ← Host.orFail (absent <$> Host.read path) (.read path)
  match answer with
  | none => return none
  | some data => some <$> Host.orFail (pure ((decode data).mapError .badSequence)) (.read path)
where
  absent : Except IoFault Octets → Except IoFault (Option Octets)
    | .ok data => .ok (some data)
    | .error .missing => .ok none
    | .error fault => .error fault

def run (engine : Engine) (layout : Layout) (file : Path) : Host.Step m Invocation := do
  let source ← readDefinition file
  let template ← readTemplate (layout.templatePath file)
  let buffer := LineBuffer.empty.appendAll template.toList
  Host.tell (.invoking file.moduleName)
  match engine.generate source file.moduleName with
  | .error fault => throw (.generation file fault)
  | .ok generated =>
    generated.log.forM Host.tell
    let buffer := buffer.appendAll generated.lines
    Host.tell (.finished file.moduleName buffer.size generated.descriptors.messages.length)
    return ⟨file.moduleName, buffer.drain.1, generated.descriptors⟩

end Invocation

end DialectBindings
