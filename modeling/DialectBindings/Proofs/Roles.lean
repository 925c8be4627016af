import DialectBindings.Definition.Reader

/-!
# What the elements of a definition are

The role of an element follows from its name and the role of the element around it. The outermost
element is the definition whatever its name. A role knows the keys of the children and attributes
that are read.
-/

set_option autoImplicit false

namespace DialectBindings.Definition
open Markup

inductive Role
  /-- The whole document, around its outermost element. -/
  | document
  | root
  | enums
  | enum
  | entry
  | param
  | deprecation
  | messages
  | message
  | field
  /-- An element without children or attributes that are read. -/
  | plain
  deriving Repr, DecidableEq

namespace Role

def items : List String := ["description", "field", "extensions", "wip", "deprecated"]

def knows : Role → String → Bool
  | document, _ => true
  | root, k => (DocumentPart.slot k).isSome
  | enums, k => k = "enum"
  | enum, k => (EnumPart.slot k).isSome
  | entry, k => (EntryPart.slot k).isSome
  | param, k => (ParamPart.slot k).isSome
  | deprecation, k => (DeprecationPart.slot k).isSome
  | messages, k => k = "message"
  | message, k => (MessagePart.slot k).isSome || items.contains k
  | field, k => (FieldPart.slot k).isSome
  | plain, _ => false

def child : Role → String → Role
  | document, _ => root
  | root, "enums" => enums
  | root, "messages" => messages
  | enums, "enum" => enum
  | enum, "entry" => entry
  | enum, "deprecated" => deprecation
  | entry, "param" => param
  | entry, "deprecated" => deprecation
  | messages, "message" => message
  | message, "field" => field
  | message, "deprecated" => deprecation
  | _, _ => plain

def isOpen : Role → Bool
  | root | enums | enum | entry | messages | message => true
  | _ => false

/-- Whether the children of the role may stand in any order. -/
def isUnordered : Role → Bool
  | root | enum | entry => true
  | _ => false

/-- Whether some children of the role may be marked as absent. A mark on the element itself then
counts for them. -/
def minds : Role → Bool
  | root | enum | entry => true
  | _ => false

def mayBeAbsent : Role → String → Bool
  | root, "version" | root, "dialect" => true
  | enum, "deprecated" => true
  | entry, "deprecated" | entry, "wip" => true
  | _, _ => false

/-- Whether a mark of absence on a child counts. -/
def heeds (ρ : Role) (k : String) : Bool := ρ.mayBeAbsent k || (ρ.child k).minds

theorem isOpen_of_isUnordered {ρ : Role} (h : ρ.isUnordered = true) : ρ.isOpen = true := by
  cases ρ <;> first | rfl | cases h

def isLeaf : Role → Bool
  | param | deprecation | field | plain => true
  | _ => false

theorem isLeaf_of_isOpen {ρ : Role} (h : ρ.isOpen = true) : ρ.isLeaf = false := by
  cases ρ <;> first | rfl | cases h

theorem child_of_isLeaf {ρ : Role} (h : ρ.isLeaf = true) (k : String) : ρ.child k = plain := by
  cases ρ <;> first | rfl | cases h

theorem child_entry (k : String) : (entry.child k).isLeaf = true := by
  simp only [child]
  split <;> first | contradiction | rfl

theorem child_message (k : String) : (message.child k).isLeaf = true := by
  simp only [child]
  split <;> first | contradiction | rfl

end Role

def roleIn : Open → Role
  | [] => .document
  | (name, _) :: outer => (roleIn outer).child (String.ofList (localName name))

end DialectBindings.Definition
