import DialectBindings.Definition.Fault
import DialectBindings.Descriptors
import DialectBindings.Event

/-!
# Engines

An engine makes the code of a module from the source of a definition and the module's name. It
answers the lines in order, a description of what they declare, and what it has to tell the log;
or it refuses the source.
-/

set_option autoImplicit false

namespace DialectBindings

inductive EngineFault
  | definition (fault : Definition.Fault)
  | invalidLine (line : String)
  | unexpectedEnd
  deriving Repr, DecidableEq

def EngineFault.message : EngineFault → String
  | .definition fault => fault.message
  | .invalidLine line => "invalid message line '" ++ line ++ "'"
  | .unexpectedEnd => "unexpected end of definition"

structure Generated where
  lines : List String
  descriptors : Descriptors
  log : List Event

structure Engine where
  generate (source moduleName : String) : Except EngineFault Generated

end DialectBindings
