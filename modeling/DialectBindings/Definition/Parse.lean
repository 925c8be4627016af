import DialectBindings.Definition.Check
import DialectBindings.Definition.Reader

/-!
# Parsing definitions

The whole document is read before any of it is checked.
-/

set_option autoImplicit false

namespace DialectBindings

def Dialect.parse (source : String) : Except Definition.Fault Dialect := do
  let document ← (Definition.Document.parse source).mapError .markup
  document.check

end DialectBindings
