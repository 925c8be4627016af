import DialectBindings.Proofs.Summaries

/-!
# The properties of a message class

What stands in a message class after its field table: the constructor, which gives every property
a value, and the properties with their types.
-/

set_option autoImplicit false

namespace DialectBindings.Bindings
open Identifier Listing

structure PropertyPart where
  notes : List String
  name : String
  type : String
  initial : String

def PropertyPart.assignment (p : PropertyPart) : String :=
  "    this." ++ p.name ++ " = " ++ p.initial

def PropertyPart.lines (p : PropertyPart) : List String :=
  "" :: p.notes ++ ["  " ++ p.name ++ ": " ++ p.type]

def classBody (ps : List PropertyPart) : List String :=
  ["  constructor() \x7b", "    super()"] ++ ps.map PropertyPart.assignment ++ ["  \x7d"] ++
    ps.flatMap PropertyPart.lines

def propertyPart (d : Dialect) (f : Field) : PropertyPart where
  notes := notes 1 (f.description :: (f.units.map ("Units: " ++ ·)).toList)
  name := camel f.name
  type := (propertyType d f).1
  initial := (propertyType d f).2

def properties (d : Dialect) (m : Message) : List PropertyPart := m.fields.map (propertyPart d)

theorem propertyPart_lines (d : Dialect) (f : Field) :
    linesFrom 1 (property d f) = (propertyPart d f).lines := by
  rw [property_lines]
  simp [PropertyPart.lines, propertyPart, ← String.append_assoc]

theorem messagePart_body (d : Dialect) (m : Message) :
    (messagePart d m).body = classBody (properties d m) := by
  change linesFrom 1 (messageConstructor d m ++ m.fields.flatMap (property d)) = _
  rw [linesFrom_append_of_balanced (messageConstructor_balanced d m),
    linesFrom_flatMap (property_balanced d), messageConstructor_lines, classBody, properties]
  simp [List.flatMap_map, propertyPart_lines, PropertyPart.assignment, propertyPart,
    Function.comp_def, ← String.append_assoc]

theorem outline_bodies (d : Dialect) (moduleName : String) :
    (outline d moduleName).messages.map (·.body) =
      d.messages.map fun m => classBody (properties d m) := by
  simp [outline, Function.comp_def, messagePart_body]

end DialectBindings.Bindings
