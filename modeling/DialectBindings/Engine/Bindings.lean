import DialectBindings.Bindings.Module
import DialectBindings.Definition.Parse
import DialectBindings.Engine

/-!
# The engine for dialects

The source is a dialect's definition, and the code is its bindings.
-/

set_option autoImplicit false

namespace DialectBindings

def Engine.bindings : Engine where
  generate source moduleName := do
    let dialect ← (Dialect.parse source).mapError .definition
    return {
      lines := Bindings.lines dialect moduleName
      descriptors := dialect.descriptors
      log := [.parsed moduleName dialect.enums.length dialect.messages.length] }

end DialectBindings
