import DialectBindings.FieldType

/-!
# Dialects

What a checked definition declares: enums with their entries, messages with their fields, and
the header that names other definitions.
-/

set_option autoImplicit false

namespace DialectBindings

structure Deprecation where
  since : Option String
  replacedBy : Option String
  note : String
  deriving Repr, DecidableEq

structure Field where
  name : String
  type : FieldType
  enumName : Option String
  units : Option String
  description : String
  /-- Extension fields were added after the message was first published. -/
  isExtension : Bool
  deriving Repr, DecidableEq

structure Message where
  id : UInt32
  name : String
  description : String
  /-- The fields as they are declared. -/
  fields : List Field
  wip : Bool
  deprecated : Option Deprecation
  deriving Repr, DecidableEq

structure Param where
  index : UInt8
  label : Option String
  units : Option String
  description : String
  deriving Repr, DecidableEq

structure Entry where
  name : String
  value : UInt32
  description : String
  /-- Parameters of a command, reserved ones left out. -/
  params : List Param
  wip : Bool
  deprecated : Option Deprecation
  deriving Repr, DecidableEq

structure Enum where
  name : String
  description : String
  bitmask : Bool
  entries : List Entry
  deprecated : Option Deprecation
  deriving Repr, DecidableEq

def commandEnum : String := "MAV_CMD"

def Enum.isCommands (e : Enum) : Bool := e.name == commandEnum

/-- A definition after it was checked: enums and messages in the order they are declared, no two
enums of one name and no two messages of one id. -/
structure Dialect where
  includes : List String
  version : Option UInt32
  number : Option UInt32
  enums : List Enum
  messages : List Message
  deriving Repr, DecidableEq

def Dialect.commands? (d : Dialect) : Option Enum := d.enums.find? Enum.isCommands

end DialectBindings
