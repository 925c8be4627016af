import DialectBindings.Markup.Content

/-!
# Values and where they stand

A value of a record stands in an attribute, in a text, or in an element of its own. Numbers are
taken from an attribute as it is written; all else is read after references are replaced.
-/

set_option autoImplicit false

namespace DialectBindings.Markup
open Text

inductive Source
  /-- An attribute's value as written. -/
  | attribute (raw : List Char)
  | text (value : List Char)
  | element (tag : Tag) (inner : Content)

/-- The record a value belongs to, and the bindings that hold where the reader stands. Without
the latter the reader stands right behind the start tag of the value. -/
structure Place where
  parent : Tag
  ahead : Option Scope

/-- A content whose elements are matched with their end tags; names and texts do not count. The
name is that of the element that was opened last when it turns out to be unfinished. -/
def Content.checkWhole (name : List Char) : Content → Except Fault Unit
  | .closed _ => .ok ()
  | .ended => .error (.missingEnd name)
  | .failed fault => .error fault
  | .text _ rest => rest.checkWhole name
  | .element _ inner rest => do
    inner.checkWhole name
    rest.checkWhole name

/-- An element is passed over. The reader stands behind its start tag and so has seen what comes
first inside it. -/
def passOver (tag : Tag) (inner : Content) : Except Fault Unit := do
  if let .element first _ _ := inner then first.check
  inner.checkWhole tag.name

/-- An element is put aside to be read later: its texts and tags are looked at now. The name is
that of the element around it. -/
def Content.checkAside (name : List Char) : Content → Except Fault Unit
  | .closed _ => .ok ()
  | .ended => .error (.missingEnd name)
  | .failed fault => .error fault
  | .text value rest => do
    let _ ← value
    rest.checkAside name
  | .element tag inner rest => do
    tag.check
    inner.checkAside name
    rest.checkAside name

def plainText (tag : Tag) (inner : Content) : Except Fault (List Char) := do
  let finish (value : List Char) : Content → Except Fault (List Char)
    | .closed _ => .ok value
    | .element tag _ _ => do
      tag.check
      .error (.unexpectedElement tag.name)
    | .failed fault => .error fault
    | _ => .error (.missingEnd tag.name)
  match inner with
  | .text value rest => finish (← value) rest
  | inner => finish [] inner

namespace Source

def chars : Source → Except Fault (List Char)
  | .attribute raw => (replaced 0 raw).mapError .reference
  | .text value => .ok value
  | .element tag inner => plainText tag inner

def digitChars : Source → Except Fault (List Char)
  | .attribute raw => .ok raw
  | s => s.chars

def readText (s : Source) : Except Fault String := s.chars.map String.ofList

def readNumber {α : Type} (read : List Char → Option α) (expected : Expected) (s : Source) :
    Except Fault α := do
  match read (trimBy isSpace (← s.digitChars)) with
  | some n => .ok n
  | none => .error (.wrongType (← s.chars) expected)

def readWord : Source → Except Fault UInt32 := readNumber word? .word

def readByte : Source → Except Fault UInt8 := readNumber byte? .byte

def readBool (s : Source) : Except Fault Bool := do
  let value ← s.chars
  match trimBy isSpace value with
  | ['t', 'r', 'u', 'e'] | ['1'] => .ok true
  | ['f', 'a', 'l', 's', 'e'] | ['0'] => .ok false
  | _ => .error (.wrongType value .boolean)

/-- A value that only has to be there. -/
def readPresence : Source → Except Fault Unit
  | .element tag inner => passOver tag inner
  | _ => .ok ()

def isAbsent (place : Place) : Source → Bool
  | .element tag inner =>
    let scope := place.ahead.getD (inner.scopeAhead tag.scope)
    place.parent.isAbsent scope || tag.isAbsent scope
  | _ => false

def readOptional {α : Type} (read : Source → Except Fault α) (place : Place) (s : Source) :
    Except Fault (Option α) :=
  if s.isAbsent place then do
    s.readPresence
    return none
  else (read s).map some

end Source

end DialectBindings.Markup
