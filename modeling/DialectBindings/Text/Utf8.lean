/-!
# UTF-8

Octets of a text and the text of octets. A reader that meets a fault tells where the first faulty
sequence starts and how many octets it has, or that the octets end inside a sequence; a lenient
reader puts a replacement character for each such sequence.
-/

set_option autoImplicit false

namespace DialectBindings.Text

abbrev Octets := List UInt8

inductive Utf8Fault
  | invalid (size index : Nat)
  | incomplete (index : Nat)
  deriving Repr, DecidableEq

def Utf8Fault.message : Utf8Fault → String
  | .invalid size index => s!"invalid utf-8 sequence of {size} bytes from index {index}"
  | .incomplete index => s!"incomplete utf-8 byte sequence from index {index}"

def encode (s : List Char) : Octets := s.flatMap String.utf8EncodeChar

def octets (s : String) : Octets := encode s.toList

theorem octets_append (s t : String) : octets (s ++ t) = octets s ++ octets t := by
  simp [octets, encode]

inductive Head
  | char (c : Char) (size : Nat)
  | faulty (size : Nat)
  | cut

def isTail (octet : UInt8) : Bool := 0x80 ≤ octet && octet ≤ 0xBF

/-- For a lead octet of a longer sequence: its bits, the number of octets it asks for, and the
least and greatest octet that may come next. -/
def lead? (octet : UInt8) : Option (Nat × Nat × UInt8 × UInt8) :=
  let n := octet.toNat
  if 0xC2 ≤ n ∧ n ≤ 0xDF then some (n - 0xC0, 1, 0x80, 0xBF)
  else if n = 0xE0 then some (0, 2, 0xA0, 0xBF)
  else if n = 0xED then some (0xD, 2, 0x80, 0x9F)
  else if 0xE1 ≤ n ∧ n ≤ 0xEF then some (n - 0xE0, 2, 0x80, 0xBF)
  else if n = 0xF0 then some (0, 3, 0x90, 0xBF)
  else if 0xF1 ≤ n ∧ n ≤ 0xF3 then some (n - 0xF0, 3, 0x80, 0xBF)
  else if n = 0xF4 then some (4, 3, 0x80, 0x8F)
  else none

/-- The rest of a sequence whose first `size` octets denote `value`. -/
def tails (value size : Nat) : Nat → Octets → Head
  | 0, _ => .char (Char.ofNat value) size
  | _ + 1, [] => .cut
  | n + 1, octet :: rest =>
    if isTail octet then tails (value * 64 + (octet.toNat - 0x80)) (size + 1) n rest
    else .faulty size

def head (first : UInt8) (rest : Octets) : Head :=
  if first < 0x80 then .char (Char.ofNat first.toNat) 1
  else
    match lead? first with
    | none => .faulty 1
    | some (bits, count, low, high) =>
      match rest with
      | [] => .cut
      | next :: _ => if low ≤ next && next ≤ high then tails bits 1 count rest else .faulty 1

def decodeFrom (index : Nat) : Octets → Except Utf8Fault (List Char)
  | [] => .ok []
  | first :: rest =>
    match head first rest with
    | .char c size => (decodeFrom (index + size) (rest.drop (size - 1))).map (c :: ·)
    | .faulty size => .error (.invalid size index)
    | .cut => .error (.incomplete index)
  termination_by s => s.length
  decreasing_by simp only [List.length_cons, List.length_drop]; omega

def decode (s : Octets) : Except Utf8Fault String := (decodeFrom 0 s).map String.ofList

def lenientChars : Octets → List Char
  | [] => []
  | first :: rest =>
    match head first rest with
    | .char c size => c :: lenientChars (rest.drop (size - 1))
    | .faulty size => '\uFFFD' :: lenientChars (rest.drop (size - 1))
    | .cut => ['\uFFFD']
  termination_by s => s.length
  decreasing_by all_goals simp only [List.length_cons, List.length_drop]; omega

def lenient (s : Octets) : String := String.ofList (lenientChars s)

end DialectBindings.Text
