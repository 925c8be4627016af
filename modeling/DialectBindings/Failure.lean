import DialectBindings.Engine
import DialectBindings.IoFault

/-!
# Failures

Why a batch ends before its time, and the path of the file that is to blame.
-/

set_option autoImplicit false

namespace DialectBindings

inductive Failure
  | read (path : Path) (fault : IoFault)
  | generation (path : Path) (fault : EngineFault)
  | write (path : Path) (fault : IoFault)
  | extension (path : Path) (text : String)
  deriving Repr, DecidableEq

namespace Failure

def path : Failure → Path
  | .read path _ => path
  | .generation path _ => path
  | .write path _ => path
  | .extension path _ => path

def reason : Failure → String
  | .read _ fault => fault.message
  | .generation _ fault => fault.message
  | .write _ fault => fault.message
  | .extension _ text => "the extension '" ++ text ++ "' has a slash"

def action : Failure → String
  | .read .. => "read"
  | .generation .. => "generate"
  | .write .. => "write"
  | .extension .. => "name the artifact of"

def message (f : Failure) : String :=
  "failed to " ++ f.action ++ " " ++ f.path.display ++ ": " ++ f.reason

def help? : Failure → Option String
  | .read .. => some "check that the file exists and is readable UTF-8 text"
  | _ => none

end Failure

end DialectBindings
