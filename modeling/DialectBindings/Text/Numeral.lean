/-!
# Reading numerals

Digits of a base denote a number below a bound. The first character that is no digit, or that
takes the number to the bound, ends the reading; of the two at one character the former counts.
-/

set_option autoImplicit false

namespace DialectBindings.Text

inductive NumeralFault
  | empty
  | notDigit
  | tooLarge
  deriving Repr, DecidableEq

def digit? (base : Nat) (c : Char) : Option Nat :=
  let n := c.toNat
  let value :=
    if 48 ≤ n ∧ n ≤ 57 then n - 48
    else if 97 ≤ n ∧ n ≤ 122 then n - 87
    else if 65 ≤ n ∧ n ≤ 90 then n - 55
    else base
  if value < base then some value else none

def moreDigits (base bound : Nat) : Nat → List Char → Except NumeralFault Nat
  | value, [] => .ok value
  | value, c :: rest =>
    match digit? base c with
    | none => .error .notDigit
    | some d =>
      if value * base + d < bound then moreDigits base bound (value * base + d) rest
      else .error .tooLarge

def digits (base bound : Nat) : List Char → Except NumeralFault Nat
  | [] => .error .empty
  | s => moreDigits base bound 0 s

def numeral? (base bound : Nat) : List Char → Option Nat
  | '+' :: rest => (digits base bound rest).toOption
  | s => (digits base bound s).toOption

def byte? (s : List Char) : Option UInt8 := (numeral? 10 256 s).map UInt8.ofNat

def word? (s : List Char) : Option UInt32 := (numeral? 10 4294967296 s).map UInt32.ofNat

end DialectBindings.Text
