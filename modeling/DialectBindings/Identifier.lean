import DialectBindings.Text.Blank
import DialectBindings.Text.CaseMap

/-!
# Identifiers of the generated module

Names of a dialect are words joined by underscores. Types take them in Pascal case, properties
in camel case, and the members of an enum without the enum's own name in front.
-/

set_option autoImplicit false

namespace DialectBindings.Identifier
open Text

def capitalized : List Char → List Char
  | [] => []
  | c :: rest => capital c ++ rest.flatMap small

def pascalChars (name : List Char) : List Char :=
  (pieces '_' name).flatMap capitalized

def camelChars (name : List Char) : List Char :=
  match pascalChars name with
  | [] => []
  | c :: rest => small c ++ rest

def pascal (name : String) : String := String.ofList (pascalChars name.toList)

def camel (name : String) : String := String.ofList (camelChars name.toList)

def startsWithDigit : List Char → Bool
  | c :: _ => c.isDigit
  | [] => false

/-- The entry's name without the enum's name and an underscore in front, unless nothing would
be left. -/
def shortName (enum entry : List Char) : List Char :=
  let front := enum ++ ['_']
  if front.isPrefixOf entry && front.length < entry.length then entry.drop front.length
  else entry

def memberChars (enum entry : List Char) : List Char :=
  let short := shortName enum entry
  if startsWithDigit short then '\'' :: short ++ ['\''] else short

def member (enum entry : String) : String :=
  String.ofList (memberChars enum.toList entry.toList)

/-- The reference to a member of a type: quoted members are taken in brackets. -/
def memberAccess (type enum entry : String) : String :=
  match memberChars enum.toList entry.toList with
  | '\'' :: rest => type ++ "[" ++ String.ofList ('\'' :: rest) ++ "]"
  | name => type ++ "." ++ String.ofList name

end DialectBindings.Identifier
