import DialectBindings.Dialect

/-!
# Definition documents

A definition as it is written: what the elements and attributes of the document say, before it
is checked that types, values and ids make sense.
-/

set_option autoImplicit false

namespace DialectBindings.Definition

structure ParamDecl where
  index : UInt8
  label : Option String
  units : Option String
  reserved : Bool
  description : String
  deriving Repr, DecidableEq

structure EntryDecl where
  name : String
  /-- A numeral; without one the value follows that of the entry before. -/
  value : Option String
  description : String
  params : List ParamDecl
  deprecated : Option Deprecation
  wip : Bool
  deriving Repr, DecidableEq

structure EnumDecl where
  name : String
  bitmask : Bool
  description : String
  deprecated : Option Deprecation
  entries : List EntryDecl
  deriving Repr, DecidableEq

structure FieldDecl where
  type : String
  name : String
  enumName : Option String
  units : Option String
  description : String
  deriving Repr, DecidableEq

/-- The children of a message; the marker divides base fields from extension fields. -/
inductive MessageItem
  | description (text : String)
  | field (f : FieldDecl)
  | extensions
  | wip
  | deprecated (d : Deprecation)
  | other
  deriving Repr, DecidableEq

structure MessageDecl where
  id : UInt32
  name : String
  items : List MessageItem
  deriving Repr, DecidableEq

structure Document where
  includes : List String
  version : Option UInt32
  number : Option UInt32
  enums : List EnumDecl
  messages : List MessageDecl
  deriving Repr, DecidableEq

end DialectBindings.Definition
