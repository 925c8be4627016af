import DialectBindings.Artifact
import DialectBindings.Invocation
import DialectBindings.OutputMode

/-!
# Delivery

The code of a definition file goes to the output stream or to the file's artifact.
-/

set_option autoImplicit false

namespace DialectBindings
open Text

namespace Delivery

variable {m : Type → Type} [Monad m] [Host m]

def streamPath : Path := Path.ofString "<stdout>"

/-- The artifact's path, if the code went there. -/
def deliver (mode : OutputMode) (layout : Layout) (file : Path) (code : String) :
    Host.Step m (Option Path) :=
  match mode with
  | .combined => do
    Host.orFail (Host.send (octets code)) (.write streamPath)
    return none
  | .perFile => do
    match layout.artifactPath? file with
    | none => throw (.extension file layout.extension)
    | some path =>
      Artifact.write ⟨path, code⟩
      return some path

end Delivery

end DialectBindings
