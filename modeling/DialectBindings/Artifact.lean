import DialectBindings.Host

/-!
# Artifacts

Text that is to become a file. Directories that are missing on its way are made, and a file that
is there gets the new content.
-/

set_option autoImplicit false

namespace DialectBindings
open Text

structure Artifact where
  path : Path
  content : String
  deriving Repr, DecidableEq

namespace Artifact

variable {m : Type → Type} [Monad m] [Host m]

def size (a : Artifact) : Nat := (octets a.content).length

def write (a : Artifact) : Host.Step m Unit := do
  if let some parent := a.path.parent? then
    Host.orFail (Host.ensureDirectory parent) (.write a.path)
  Host.orFail (Host.write a.path (octets a.content)) (.write a.path)
  Host.tell (.wrote a.path a.size)

end Artifact

end DialectBindings
