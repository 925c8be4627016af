import DialectBindings.Text.HiddenTable

/-!
# Quoted text in diagnostics

Text between double quotes in which quotes, backslashes and characters that do not show are
escaped; and the same for the octets of a name, where an octet beyond ASCII is a number.
-/

set_option autoImplicit false

namespace DialectBindings.Text

def isHidden (c : Char) : Bool :=
  hiddenRanges.any fun (low, high) => low ≤ c.toNat && c.toNat ≤ high

def hexDigit (n : Nat) : Char :=
  if n < 10 then Char.ofNat (48 + n) else Char.ofNat (87 + n)

def hex (n : Nat) : List Char :=
  if n < 16 then [hexDigit n] else hex (n / 16) ++ [hexDigit (n % 16)]

def escape (c : Char) : List Char :=
  match c with
  | '\x00' => ['\\', '0']
  | '\t' => ['\\', 't']
  | '\r' => ['\\', 'r']
  | '\n' => ['\\', 'n']
  | '"' => ['\\', '"']
  | '\\' => ['\\', '\\']
  | c => if isHidden c then ['\\', 'u', '\x7b'] ++ hex c.toNat ++ ['\x7d'] else [c]

def quoted (s : String) : String :=
  String.ofList ('"' :: (s.toList.flatMap escape ++ ['"']))

/-- A printable octet as its character, a quote escaped, another octet as a capital hexadecimal
number. -/
def escapeOctet (octet : UInt8) : List Char :=
  let n := octet.toNat
  if n = 34 then ['\\', '"']
  else if 32 ≤ n ∧ n ≤ 126 then [Char.ofNat n]
  else '0' :: 'x' :: (hex n).map Char.toUpper

def quotedOctets (octets : List UInt8) : String :=
  String.ofList ('"' :: (octets.flatMap escapeOctet ++ ['"']))

end DialectBindings.Text
