import DialectBindings.OutputMode
import DialectBindings.Path
import DialectBindings.Registry

/-!
# Events

What a batch tells its log: one kind of event for each thing worth telling, with a level, a
message and named fields.
-/

set_option autoImplicit false

namespace DialectBindings

inductive Level
  | warn
  | info
  | debug
  deriving Repr, DecidableEq

namespace Level

def name : Level → String
  | .warn => "WARN"
  | .info => "INFO"
  | .debug => "DEBUG"

/-- How much a log of this level tells: each level tells all that the levels before it tell. -/
def rank : Level → Nat
  | .warn => 0
  | .info => 1
  | .debug => 2

end Level

inductive Event
  | overridden (change : Registry.Override)
  | starting (mode : OutputMode) (files : Nat)
  | invoking (moduleName : String)
  | parsed (moduleName : String) (enums messages : Nat)
  | finished (moduleName : String) (lines messages : Nat)
  | wrote (path : Path) (size : Nat)
  deriving Repr, DecidableEq

namespace Event

inductive Value
  | number (n : Nat)
  | text (s : String)
  deriving Repr, DecidableEq

def Value.render : Value → String
  | .number n => toString n
  | .text s => s

def level : Event → Level
  | .overridden _ => .warn
  | .starting .. => .info
  | .wrote .. => .info
  | _ => .debug

def message : Event → String
  | .overridden _ => "magic number overridden by later definition"
  | .starting .. => "starting batch"
  | .invoking _ => "invoking engine"
  | .parsed .. => "parsed definition"
  | .finished .. => "engine finished"
  | .wrote .. => "wrote artifact"

def fields : Event → List (String × Value)
  | .overridden o =>
    [("id", .number o.id.toNat), ("name", .text o.name),
      ("previous", .text ("Some(" ++ toString o.previous.toNat ++ ")")),
      ("magic", .number o.magic.toNat)]
  | .starting mode files => [("mode", .text mode.name), ("files", .number files)]
  | .invoking moduleName => [("module", .text moduleName)]
  | .parsed moduleName enums messages =>
    [("module", .text moduleName), ("enums", .number enums), ("messages", .number messages)]
  | .finished moduleName lines messages =>
    [("module", .text moduleName), ("lines", .number lines), ("messages", .number messages)]
  | .wrote path size => [("path", .text path.display), ("bytes", .number size)]

def isToldAt (log : Level) (e : Event) : Bool := e.level.rank ≤ log.rank

def line (time : String) (e : Event) : String :=
  time ++ String.ofList (List.replicate (6 - e.level.name.length) ' ') ++ e.level.name ++ " " ++
    e.message ++ String.join (e.fields.map fun (name, value) => " " ++ name ++ "=" ++ value.render)

end Event

end DialectBindings
