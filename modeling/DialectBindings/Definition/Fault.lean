import DialectBindings.Markup.Fault

/-!
# Faults of a definition

Why a definition is refused, how that is worded, and what may help.
-/

set_option autoImplicit false

namespace DialectBindings.Definition

inductive Fault
  | markup (fault : Markup.Fault)
  | unknownType (message field type : String)
  | arrayLength (message field type : String)
  | entryValue (enum entry value : String)
  | duplicateId (id : UInt32) (first second : String)
  deriving Repr, DecidableEq

namespace Fault

def message : Fault → String
  | .markup fault => "invalid definition: " ++ fault.message
  | .unknownType message field type =>
    "unknown type '" ++ type ++ "' for field '" ++ field ++ "' of message " ++ message
  | .arrayLength message field type =>
    "invalid array length in '" ++ type ++ "' for field '" ++ field ++ "' of message " ++ message
  | .entryValue enum entry value =>
    "invalid value '" ++ value ++ "' for entry " ++ entry ++ " of enum " ++ enum
  | .duplicateId id first second =>
    "message id " ++ toString id.toNat ++ " is declared by both " ++ first ++ " and " ++ second

def help? : Fault → Option String
  | .unknownType .. =>
    some "valid types are int8_t..int64_t, uint8_t..uint64_t, char, float, double"
  | .arrayLength .. => some "array lengths must be between 1 and 255"
  | _ => none

end Fault

end DialectBindings.Definition
