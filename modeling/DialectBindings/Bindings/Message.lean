import DialectBindings.Bindings.Enum
import DialectBindings.Dialect.Wire

/-!
# Message classes

Every message becomes a class with its constants, the table of its fields in wire order, and one
property for every field as declared.
-/

set_option autoImplicit false

namespace DialectBindings.Bindings
open Identifier Listing

/-- The type of a property and the value it starts with. Only enums of the same module are used
as types. -/
def propertyType (d : Dialect) (f : Field) : String × String :=
  if f.type.isText then ("string", "''")
  else if f.type.length.isSome then (f.type.scalar.scriptType ++ "[]", "[]")
  else
    match f.enumName.filter fun name => d.enums.any (·.name == name) with
    | some name => (pascal name, "0 as " ++ pascal name)
    | none => if f.type.scalar.isWide then ("bigint", "BigInt(0)") else ("number", "0")

def quotedName (s : String) : String := "'" ++ s ++ "'"

def fieldRow (offset : Nat) (f : Field) : String :=
  "new MavLinkPacketField(" ++ ", ".intercalate
    [quotedName f.name, quotedName (camel f.name), toString offset,
      if f.isExtension then "true" else "false", toString f.size,
      quotedName f.type.displayName, quotedName (f.units.getD "")] ++ "),"

def withOffsets (offset : Nat) : List Field → List (Nat × Field)
  | [] => []
  | f :: rest => (offset, f) :: withOffsets (offset + f.size) rest

def fieldTable (m : Message) : List Directive :=
  .line "static FIELDS = [" ::
    indented ((withOffsets 0 m.wireFields).map fun (offset, f) => .line (fieldRow offset f)) ++
    [.line "]"]

def messageConstants (m : Message) : List Directive :=
  [.line ("static MSG_ID = " ++ toString m.id.toNat),
    .line ("static MSG_NAME = '" ++ m.name ++ "'"),
    .line ("static PAYLOAD_LENGTH = " ++ toString m.payloadLength)] ++
    (m.magic.map fun n => Directive.line ("static MAGIC_NUMBER = " ++ toString n.toNat)).toList

def messageConstructor (d : Dialect) (m : Message) : List Directive :=
  .line "constructor() \x7b" ::
    indented (.line "super()" :: m.fields.map fun f =>
      .line ("this." ++ camel f.name ++ " = " ++ (propertyType d f).2)) ++ [.line "\x7d"]

def property (d : Dialect) (f : Field) : List Directive :=
  [.blank,
    .doc (f.description :: (f.units.map ("Units: " ++ ·)).toList),
    .line (camel f.name ++ ": " ++ (propertyType d f).1)]

def messageDeclaration (d : Dialect) (m : Message) : List Directive :=
  [.doc (m.description :: wipTag m.wip ++ (m.deprecated.map deprecationTag).toList),
    .line ("export class " ++ pascal m.name ++ " extends MavLinkData \x7b")] ++
    indented (messageConstants m ++ [.blank] ++ fieldTable m ++ [.blank] ++
      messageConstructor d m ++ m.fields.flatMap (property d)) ++
    [.line "\x7d", .blank]

end DialectBindings.Bindings
