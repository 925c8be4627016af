/-!
# The X.25 checksum

A 16-bit register is fed octets. Each octet is folded in four bits at a time, which comes to the
same as eight steps of division by the polynomial.
-/

set_option autoImplicit false

namespace DialectBindings.Checksum

def start : UInt16 := 0xFFFF

def step (register : UInt16) (octet : UInt8) : UInt16 :=
  let low := octet ^^^ register.toUInt8
  let t := (low ^^^ (low <<< 4)).toUInt16
  (register >>> 8) ^^^ (t <<< 8) ^^^ (t <<< 3) ^^^ (t >>> 4)

def accumulate (register : UInt16) (octets : List UInt8) : UInt16 :=
  octets.foldl step register

/-- Both halves of the register in one octet. -/
def fold (register : UInt16) : UInt8 :=
  (register &&& 0xFF).toUInt8 ^^^ (register >>> 8).toUInt8

theorem accumulate_append (register : UInt16) (s t : List UInt8) :
    accumulate register (s ++ t) = accumulate (accumulate register s) t :=
  List.foldl_append

end DialectBindings.Checksum
