import DialectBindings.Bindings.Command
import DialectBindings.Bindings.Message

/-!
# Modules

The module of a dialect: a header, the enums, the commands, the messages, and the registries in
which messages and commands are found by name.
-/

set_option autoImplicit false

namespace DialectBindings.Bindings
open Identifier Listing

def header (d : Dialect) (moduleName : String) : List Directive :=
  [.line ("// Generated from " ++ moduleName ++ ".xml, do not edit")] ++
    (if d.includes.isEmpty then []
      else [.line ("// includes: " ++ ", ".intercalate d.includes)]) ++
    (d.version.map fun n => Directive.line ("// version: " ++ toString n.toNat)).toList ++
    (d.number.map fun n => Directive.line ("// dialect: " ++ toString n.toNat)).toList ++ [.blank]

def messageRow (m : Message) : String := "'" ++ m.name ++ "': " ++ pascal m.name ++ ","

def commandRow (enum : Enum) (e : Entry) : String :=
  "[" ++ commandAccess enum e ++ "]: " ++ commandClass e.name ++ ","

def commandRegistry (enum : Enum) : List Directive :=
  [.blank, .line "export const COMMANDS: MavLinkCommandRegistry = \x7b"] ++
    indented (enum.entries.map fun e => .line (commandRow enum e)) ++ [.line "\x7d"]

def registries (d : Dialect) : List Directive :=
  .line "export const REGISTRY: MavLinkPacketRegistry = \x7b" ::
    indented (d.messages.map fun m => .line (messageRow m)) ++ [.line "\x7d"] ++
    d.commands?.elim [] commandRegistry

/-- The parts of a module in order; each starts and ends at the margin. -/
def sections (d : Dialect) (moduleName : String) : List (List Directive) :=
  [header d moduleName] ++ d.enums.map enumDeclaration ++
    (d.commands?.elim [] fun enum => enum.entries.map (commandDeclaration enum)) ++
    d.messages.map (messageDeclaration d) ++ [registries d]

def lines (d : Dialect) (moduleName : String) : List String :=
  (sections d moduleName).flatMap (linesFrom 0)

end DialectBindings.Bindings
