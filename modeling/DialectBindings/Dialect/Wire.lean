import DialectBindings.Checksum
import DialectBindings.Dialect
import DialectBindings.Text.Utf8

/-!
# The wire layout of a message

Base fields go out by element size, the largest first, and extension fields after them. The
layout of the base fields is summed up in one octet that both ends compare.
-/

set_option autoImplicit false

namespace DialectBindings

namespace Field

def elementSize (f : Field) : Nat := f.type.scalar.size

def size (f : Field) : Nat := f.type.size

/-- The octets by which a field enters the checksum. -/
def signature (f : Field) : Text.Octets :=
  Text.octets f.type.scalar.wireName ++ Text.octets " " ++ Text.octets f.name ++
    Text.octets " " ++ f.type.length.toList

end Field

namespace Message

def baseFields (m : Message) : List Field := m.fields.filter (!·.isExtension)

def extensionFields (m : Message) : List Field := m.fields.filter (·.isExtension)

/-- Base fields in wire order: those of one element size stay as declared. -/
def sortedFields (m : Message) : List Field :=
  m.baseFields.mergeSort fun f g => g.elementSize ≤ f.elementSize

def wireFields (m : Message) : List Field := m.sortedFields ++ m.extensionFields

def payloadLength (m : Message) : Nat := m.baseFields.foldr (fun f n => f.size + n) 0

/-- The octets that the checksum of a message is taken of. -/
def signature (m : Message) : Text.Octets :=
  Text.octets m.name ++ Text.octets " " ++ m.sortedFields.flatMap Field.signature

def crcExtra (m : Message) : UInt8 :=
  Checksum.fold (Checksum.accumulate Checksum.start m.signature)

/-- The checksum octet that is published: none while the message is still being worked on. -/
def magic (m : Message) : Option UInt8 := if m.wip then none else some m.crcExtra

end Message

end DialectBindings
