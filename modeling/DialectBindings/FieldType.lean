/-!
# Types of message fields

A field holds one scalar or an array of a fixed number of them.
-/

set_option autoImplicit false

namespace DialectBindings

/-- Scalars of the wire format. The version marker is an octet that the protocol fills in. -/
inductive Scalar
  | char
  | int8
  | uint8
  | versionMarker
  | int16
  | uint16
  | int32
  | uint32
  | float
  | int64
  | uint64
  | double
  deriving Repr, DecidableEq

namespace Scalar

def ofName? : String → Option Scalar
  | "char" => some .char
  | "int8_t" => some .int8
  | "uint8_t" => some .uint8
  | "uint8_t_mavlink_version" => some .versionMarker
  | "int16_t" => some .int16
  | "uint16_t" => some .uint16
  | "int32_t" => some .int32
  | "uint32_t" => some .uint32
  | "float" => some .float
  | "int64_t" => some .int64
  | "uint64_t" => some .uint64
  | "double" => some .double
  | _ => none

/-- The name that enters the checksum; the version marker is a plain octet there. -/
def wireName : Scalar → String
  | .char => "char"
  | .int8 => "int8_t"
  | .uint8 => "uint8_t"
  | .versionMarker => "uint8_t"
  | .int16 => "int16_t"
  | .uint16 => "uint16_t"
  | .int32 => "int32_t"
  | .uint32 => "uint32_t"
  | .float => "float"
  | .int64 => "int64_t"
  | .uint64 => "uint64_t"
  | .double => "double"

def size : Scalar → Nat
  | .char | .int8 | .uint8 | .versionMarker => 1
  | .int16 | .uint16 => 2
  | .int32 | .uint32 | .float => 4
  | .int64 | .uint64 | .double => 8

/-- Values of 64 bits do not fit the numbers of a script. -/
def isWide : Scalar → Bool
  | .int64 | .uint64 => true
  | _ => false

def scriptType (s : Scalar) : String := if s.isWide then "bigint" else "number"

end Scalar

structure FieldType where
  scalar : Scalar
  /-- The number of elements of an array. -/
  length : Option UInt8
  deriving Repr, DecidableEq

namespace FieldType

def size (t : FieldType) : Nat :=
  match t.length with
  | some n => t.scalar.size * n.toNat
  | none => t.scalar.size

def isText (t : FieldType) : Bool := t.scalar == .char && t.length.isSome

def displayName (t : FieldType) : String :=
  match t.length with
  | some n => t.scalar.wireName ++ "[" ++ toString n.toNat ++ "]"
  | none => t.scalar.wireName

end FieldType

end DialectBindings
