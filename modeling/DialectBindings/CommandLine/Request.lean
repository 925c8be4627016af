import DialectBindings.CommandLine.Arguments
import DialectBindings.OutputMode

/-!
# Requests

What a command line asks for. A dash alone is no file, wherever it stands; then a question for the
version goes before everything else.
-/

set_option autoImplicit false

namespace DialectBindings.CommandLine

inductive Request
  | help
  | version
  | refused (fault : UsageFault)
  | nothing
  | generate (files : List Path) (options : BatchOptions)
  deriving Repr, DecidableEq

namespace Request

/-- The registry lies beside artifacts, so whoever asks for it asks for them. -/
def options (a : Arguments) : BatchOptions where
  write := a.flags.contains .write || a.flags.contains .magic
  magic := a.flags.contains .magic

def ofArguments (a : Arguments) : Request :=
  if a.files.any (·.octets = [45]) then .refused (.unknown "-")
  else if Flag.version ∈ a.flags then .version
  else if a.files = [] then .nothing
  else .generate a.files (options a)

def read (arguments : List Text.Octets) : Request :=
  match Arguments.none.takeAll arguments with
  | .ok a => ofArguments a
  | .error .help => .help
  | .error (.fault fault) => .refused fault

end Request

end DialectBindings.CommandLine
