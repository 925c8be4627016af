import DialectBindings.Definition.Document
import DialectBindings.Definition.Fault
import DialectBindings.Text.Blank

/-!
# From documents to dialects

Enum values and field types are read from their texts, blocks of one enum are joined, and no two
messages may have one id. Enums are checked before messages, each in the order of the document.
-/

set_option autoImplicit false

namespace DialectBindings.Definition
open Text

/-- A numeral for an entry: hexadecimal after `0x` or `0X`, else decimal. -/
def value? (raw : String) : Option UInt32 :=
  match trim raw.toList with
  | '0' :: 'x' :: s => (numeral? 16 4294967296 s).map UInt32.ofNat
  | '0' :: 'X' :: s => (numeral? 16 4294967296 s).map UInt32.ofNat
  | s => word? s

/-- Entries with their values; `next` is the value of an entry that gives none. -/
def checkEntries (enum : String) (next : UInt32) : List EntryDecl → Except Fault (List Entry)
  | [] => .ok []
  | e :: rest => do
    let value ← match e.value with
      | none => pure next
      | some raw =>
        match value? raw with
        | some n => pure n
        | none => throw (.entryValue enum e.name raw)
    let kept := e.params.filter (!·.reserved)
    let params := kept.map fun p => Param.mk p.index p.label p.units p.description
    let entry : Entry := {
      name := e.name
      value := value
      description := e.description
      params := params.mergeSort fun p q => p.index ≤ q.index
      wip := e.wip
      deprecated := e.deprecated }
    return entry :: (← checkEntries enum (value + 1) rest)

def checkEnum (e : EnumDecl) : Except Fault Enum := do
  return {
    name := e.name
    description := e.description
    bitmask := e.bitmask
    entries := ← checkEntries e.name 0 e.entries
    deprecated := e.deprecated }

/-- The enums with one more: a block of an enum that is there already adds its entries to it. -/
def joinEnum (enums : List Enum) (e : Enum) : List Enum :=
  if enums.any (·.name == e.name) then
    enums.map fun old =>
      if old.name == e.name then { old with entries := old.entries ++ e.entries } else old
  else enums ++ [e]

def checkEnums (joined : List Enum) : List EnumDecl → Except Fault (List Enum)
  | [] => .ok joined
  | e :: rest => do checkEnums (joinEnum joined (← checkEnum e)) rest

inductive TypeFault
  | unknown
  | arrayLength
  deriving Repr, DecidableEq

def arrayLength? (s : List Char) : Option UInt8 :=
  match s.getLast? with
  | some ']' => (byte? (trim s.dropLast)).filter (0 < ·)
  | _ => none

/-- The scalar's name, and after the first opening bracket the length of an array. A wrong length
counts before an unknown name. -/
def readType (raw : String) : Except TypeFault FieldType := do
  let s := raw.toList
  let name := s.takeWhile (· != '[')
  let length ← match s.dropWhile (· != '[') with
    | [] => pure none
    | _ :: rest =>
      match arrayLength? rest with
      | some n => pure (some n)
      | none => throw .arrayLength
  match Scalar.ofName? (String.ofList (trim name)) with
  | some scalar => pure ⟨scalar, length⟩
  | none => throw .unknown

def checkField (message : String) (isExtension : Bool) (f : FieldDecl) : Except Fault Field :=
  match readType f.type with
  | .error .unknown => .error (.unknownType message f.name f.type)
  | .error .arrayLength => .error (.arrayLength message f.name f.type)
  | .ok type => .ok {
      name := f.name
      type := type
      enumName := f.enumName
      units := f.units
      description := f.description
      isExtension := isExtension }

def addItem (state : Message × Bool) : MessageItem → Except Fault (Message × Bool)
  | .description text => .ok ({ state.1 with description := text }, state.2)
  | .extensions => .ok (state.1, true)
  | .wip => .ok ({ state.1 with wip := true }, state.2)
  | .deprecated d => .ok ({ state.1 with deprecated := some d }, state.2)
  | .other => .ok state
  | .field f => do
    let field ← checkField state.1.name state.2 f
    return ({ state.1 with fields := state.1.fields ++ [field] }, state.2)

def checkMessage (m : MessageDecl) : Except Fault Message := do
  let blank : Message := {
    id := m.id
    name := m.name
    description := ""
    fields := []
    wip := false
    deprecated := none }
  return (← m.items.foldlM addItem (blank, false)).1

def checkMessages (before : List Message) : List MessageDecl → Except Fault (List Message)
  | [] => .ok before
  | m :: rest => do
    let message ← checkMessage m
    match before.find? (·.id == message.id) with
    | some first => throw (.duplicateId message.id first.name message.name)
    | none => checkMessages (before ++ [message]) rest

def Document.check (d : Document) : Except Fault Dialect := do
  let enums ← checkEnums [] d.enums
  let messages ← checkMessages [] d.messages
  return {
    includes := d.includes
    version := d.version
    number := d.number
    enums := enums
    messages := messages }

end DialectBindings.Definition
