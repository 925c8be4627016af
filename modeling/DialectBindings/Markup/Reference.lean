import DialectBindings.Markup.Fault

/-!
# Entity and character references

A reference stands for one of five characters by name or for any character by its number.
-/

set_option autoImplicit false

namespace DialectBindings.Markup
open Text

def extent : List Char → Nat
  | [] => 0
  | c :: rest => c.utf8Size + extent rest

def entity? : List Char → Option Char
  | ['l', 't'] => some '<'
  | ['g', 't'] => some '>'
  | ['a', 'm', 'p'] => some '&'
  | ['a', 'p', 'o', 's'] => some '\''
  | ['q', 'u', 'o', 't'] => some '"'
  | _ => none

/-- The character of a number; a sign in front is refused before anything else. -/
def numbered (base : Nat) (s : List Char) : Except ReferenceFault Char :=
  match s with
  | '+' :: _ | '-' :: _ => .error .sign
  | s =>
    match digits base 4294967296 s with
    | .error fault => .error (.numeral fault)
    | .ok 0 => .error .zero
    | .ok n => if n.isValidChar then .ok (Char.ofNat n) else .error (.notCharacter n)

def resolve (start : Nat) : List Char → Except ReferenceFault Char
  | '#' :: 'x' :: s => numbered 16 s
  | '#' :: s => numbered 10 s
  | name =>
    match entity? name with
    | some c => .ok c
    | none => .error (.unknown start (start + extent name) name)

/-- Whether a character may stand inside a reference of an attribute's value. -/
def inName (c : Char) : Bool := c != ';' && c != '&'

def replaced (start : Nat) : List Char → Except ReferenceFault (List Char)
  | [] => .ok []
  | '&' :: rest =>
    let name := rest.takeWhile inName
    match h : rest.dropWhile inName with
    | ';' :: more => do
      let c ← resolve (start + 1) name
      let s ← replaced (start + 1 + extent name + 1) more
      return c :: s
    | _ => .error (.unterminated start (start + 1 + extent name))
  | c :: rest => (replaced (start + c.utf8Size) rest).map (c :: ·)
  termination_by s => s.length
  decreasing_by
    · have := (List.dropWhile_sublist (l := rest) inName).length_le
      rw [h] at this
      simp only [List.length_cons] at this ⊢
      omega
    · simp

end DialectBindings.Markup
