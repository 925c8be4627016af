import DialectBindings.Markup.Attribute

/-!
# Tags and the prefixes in force

A start tag has a name, attributes, and the bindings of prefixes to namespaces that hold inside
it. Two prefixes are reserved for one namespace each.
-/

set_option autoImplicit false

namespace DialectBindings.Markup
open Text

def markupNamespace : List Char := "http://www.w3.org/XML/1998/namespace".toList

def bindingNamespace : List Char := "http://www.w3.org/2000/xmlns/".toList

def instanceNamespace : List Char := "http://www.w3.org/2001/XMLSchema-instance".toList

/-- Prefixes with their namespaces, inner bindings first. -/
abbrev Scope := List (List Char × List Char)

/-- The bindings that a tag's attributes make, up to the first attribute that is at fault. -/
def bindings (scope : Scope) : List Item → Except BindingFault Scope
  | .keyed name _ (.ok uri) :: rest =>
    match boundPrefix? name with
    | some (some bound) =>
      if bound = ['x', 'm', 'l'] then
        if uri = markupNamespace then bindings scope rest
        else .error (.reservedPrefix bound uri)
      else if bound = ['x', 'm', 'l', 'n', 's'] then .error (.reservedPrefix bound uri)
      else if uri = markupNamespace ∨ uri = bindingNamespace then
        .error (.reservedNamespace bound uri)
      else bindings ((bound, uri) :: scope) rest
    | _ => bindings scope rest
  | _ => .ok scope

structure Tag where
  name : List Char
  /-- The text between the angle brackets, without the slash of an empty element. -/
  text : List Char
  /-- The bindings that hold from the tag on. -/
  scope : Scope
  fault : Option BindingFault
  deriving Repr, DecidableEq

namespace Tag

def itemsOf (text : List Char) : List Item :=
  let name := text.takeWhile (!isSpace ·)
  items (extent name) (text.dropWhile (!isSpace ·))

def ofText (outer : Scope) (text : List Char) : Tag :=
  let name := text.takeWhile (!isSpace ·)
  match bindings outer (itemsOf text) with
  | .ok scope => ⟨name, text, scope, none⟩
  | .error fault => ⟨name, text, outer, some fault⟩

def attributes (t : Tag) : List (Except Fault Attribute) := distinct [] (itemsOf t.text)

def key (t : Tag) : String := String.ofList (localName t.name)

/-- A tag with forbidden bindings ends the reading. -/
def check (t : Tag) : Except Fault Unit :=
  match t.fault with
  | some fault => .error (.binding fault)
  | none => .ok ()

def marksAbsent (scope : Scope) : Except Fault Attribute → Bool
  | .error _ => false
  | .ok a =>
    match splitName a.name with
    | (some name, ['n', 'i', 'l']) =>
      scope.lookup name == some instanceNamespace &&
        (a.value == ['t', 'r', 'u', 'e'] || a.value == ['1'])
    | _ => false

def isAbsent (t : Tag) (scope : Scope) : Bool := t.attributes.any (marksAbsent scope)

end Tag

end DialectBindings.Markup
