import DialectBindings.Dialect.Wire
import DialectBindings.Registry

/-!
# Descriptors

What a generated module declares, in brief: enums with the names of their entries, commands with
their numbers, and messages with their magic numbers.
-/

set_option autoImplicit false

namespace DialectBindings

structure EnumSummary where
  name : String
  entries : List String
  deriving Repr, DecidableEq

structure CommandSummary where
  name : String
  id : UInt32
  deriving Repr, DecidableEq

structure Descriptors where
  enums : List EnumSummary
  commands : List CommandSummary
  messages : List MessageSummary
  deriving Repr, DecidableEq

namespace Descriptors

def empty : Descriptors := ⟨[], [], []⟩

end Descriptors

def Message.summary (m : Message) : MessageSummary := ⟨m.id, m.name, m.magic⟩

def Enum.summary (e : Enum) : EnumSummary := ⟨e.name, e.entries.map (·.name)⟩

def Entry.commandSummary (e : Entry) : CommandSummary := ⟨e.name, e.value⟩

def Dialect.descriptors (d : Dialect) : Descriptors where
  enums := d.enums.map Enum.summary
  commands := (d.enums.filter Enum.isCommands).flatMap fun e => e.entries.map Entry.commandSummary
  messages := d.messages.map Message.summary

end DialectBindings
