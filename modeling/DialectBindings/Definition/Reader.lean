import DialectBindings.Definition.Document
import DialectBindings.Markup.Record

/-!
# Reading definition documents

For each record of a document: the parts that its attributes and children give, the keys they
stand under, and how the record is put together from its parts.
-/

set_option autoImplicit false

namespace DialectBindings.Definition
open Markup

def required {α : Type} (key : String) : Option α → Except Markup.Fault α
  | some a => .ok a
  | none => .error (.missing key)

def single {α β : Type} (part : β → α) (read : Source → Except Markup.Fault β) : Slot α :=
  ⟨fun _ s => (read s).map part, false⟩

def optional {α β : Type} (part : Option β → α) (read : Source → Except Markup.Fault β) : Slot α :=
  ⟨fun place s => (s.readOptional read place).map part, false⟩

inductive DeprecationPart
  | since (s : String)
  | replacedBy (s : String)
  | note (s : String)

namespace DeprecationPart

def slot : String → Option (Slot DeprecationPart)
  | "@since" => some (single .since Source.readText)
  | "@replaced_by" => some (single .replacedBy Source.readText)
  | "$text" => some (single .note Source.readText)
  | _ => none

def build (parts : List DeprecationPart) : Except Markup.Fault Deprecation :=
  .ok {
    since := parts.findSome? fun | .since s => some s | _ => none
    replacedBy := parts.findSome? fun | .replacedBy s => some s | _ => none
    note := (parts.findSome? fun | .note s => some s | _ => none).getD "" }

def read : Place → Source → Except Markup.Fault Deprecation := Schema.read ⟨slot, none⟩ build

end DeprecationPart

inductive ParamPart
  | index (n : UInt8)
  | label (s : String)
  | units (s : String)
  | reserved (b : Bool)
  | description (s : String)

namespace ParamPart

def slot : String → Option (Slot ParamPart)
  | "@index" => some (single .index Source.readByte)
  | "@label" => some (single .label Source.readText)
  | "@units" => some (single .units Source.readText)
  | "@reserved" => some (single .reserved Source.readBool)
  | "$text" => some (single .description Source.readText)
  | _ => none

def build (parts : List ParamPart) : Except Markup.Fault ParamDecl := do
  return {
    index := ← required "@index" (parts.findSome? fun | .index n => some n | _ => none)
    label := parts.findSome? fun | .label s => some s | _ => none
    units := parts.findSome? fun | .units s => some s | _ => none
    reserved := (parts.findSome? fun | .reserved b => some b | _ => none).getD false
    description := (parts.findSome? fun | .description s => some s | _ => none).getD "" }

def read : Place → Source → Except Markup.Fault ParamDecl := Schema.read ⟨slot, none⟩ build

end ParamPart

inductive EntryPart
  | name (s : String)
  | value (s : String)
  | description (s : String)
  | param (p : ParamDecl)
  | deprecated (d : Option Deprecation)
  | wip (mark : Option Unit)

namespace EntryPart

def slot : String → Option (Slot EntryPart)
  | "@name" => some (single .name Source.readText)
  | "@value" => some (single .value Source.readText)
  | "description" => some (single .description Source.readText)
  | "param" => some ⟨fun place s => (ParamPart.read place s).map .param, true⟩
  | "deprecated" =>
    some ⟨fun place s => (s.readOptional (DeprecationPart.read place) place).map .deprecated, false⟩
  | "wip" => some (optional .wip Source.readPresence)
  | _ => none

def build (parts : List EntryPart) : Except Markup.Fault EntryDecl := do
  return {
    name := ← required "@name" (parts.findSome? fun | .name s => some s | _ => none)
    value := parts.findSome? fun | .value s => some s | _ => none
    description := (parts.findSome? fun | .description s => some s | _ => none).getD ""
    params := parts.filterMap fun | .param p => some p | _ => none
    deprecated := (parts.findSome? fun | .deprecated d => some d | _ => none).join
    wip := (parts.findSome? fun | .wip mark => some mark | _ => none).join.isSome }

def read : Place → Source → Except Markup.Fault EntryDecl := Schema.read ⟨slot, none⟩ build

end EntryPart

inductive EnumPart
  | name (s : String)
  | bitmask (b : Bool)
  | description (s : String)
  | deprecated (d : Option Deprecation)
  | entry (e : EntryDecl)

namespace EnumPart

def slot : String → Option (Slot EnumPart)
  | "@name" => some (single .name Source.readText)
  | "@bitmask" => some (single .bitmask Source.readBool)
  | "description" => some (single .description Source.readText)
  | "deprecated" =>
    some ⟨fun place s => (s.readOptional (DeprecationPart.read place) place).map .deprecated, false⟩
  | "entry" => some ⟨fun place s => (EntryPart.read place s).map .entry, true⟩
  | _ => none

def build (parts : List EnumPart) : Except Markup.Fault EnumDecl := do
  return {
    name := ← required "@name" (parts.findSome? fun | .name s => some s | _ => none)
    bitmask := (parts.findSome? fun | .bitmask b => some b | _ => none).getD false
    description := (parts.findSome? fun | .description s => some s | _ => none).getD ""
    deprecated := (parts.findSome? fun | .deprecated d => some d | _ => none).join
    entries := parts.filterMap fun | .entry e => some e | _ => none }

def read : Place → Source → Except Markup.Fault EnumDecl := Schema.read ⟨slot, none⟩ build

end EnumPart

inductive FieldPart
  | type (s : String)
  | name (s : String)
  | enumName (s : String)
  | units (s : String)
  | description (s : String)

namespace FieldPart

def slot : String → Option (Slot FieldPart)
  | "@type" => some (single .type Source.readText)
  | "@name" => some (single .name Source.readText)
  | "@enum" => some (single .enumName Source.readText)
  | "@units" => some (single .units Source.readText)
  | "$text" => some (single .description Source.readText)
  | _ => none

def build (parts : List FieldPart) : Except Markup.Fault FieldDecl := do
  return {
    type := ← required "@type" (parts.findSome? fun | .type s => some s | _ => none)
    name := ← required "@name" (parts.findSome? fun | .name s => some s | _ => none)
    enumName := parts.findSome? fun | .enumName s => some s | _ => none
    units := parts.findSome? fun | .units s => some s | _ => none
    description := (parts.findSome? fun | .description s => some s | _ => none).getD "" }

def read : Place → Source → Except Markup.Fault FieldDecl := Schema.read ⟨slot, none⟩ build

end FieldPart

/-- A child of a message by the name of its element; text is none of the known ones. -/
def MessageItem.read (place : Place) (s : Source) : Except Markup.Fault MessageItem :=
  match s with
  | .element tag _ =>
    match tag.key with
    | "description" => s.readText.map .description
    | "field" => (FieldPart.read place s).map .field
    | "extensions" => s.readPresence.map fun _ => .extensions
    | "wip" => s.readPresence.map fun _ => .wip
    | "deprecated" => (DeprecationPart.read place s).map .deprecated
    | _ => s.readPresence.map fun _ => .other
  | _ => .ok .other

inductive MessagePart
  | id (n : UInt32)
  | name (s : String)
  | item (i : MessageItem)

namespace MessagePart

def body : Slot MessagePart := ⟨fun place s => (MessageItem.read place s).map .item, true⟩

def slot : String → Option (Slot MessagePart)
  | "@id" => some (single .id Source.readWord)
  | "@name" => some (single .name Source.readText)
  | "$value" => some body
  | _ => none

def build (parts : List MessagePart) : Except Markup.Fault MessageDecl := do
  return {
    id := ← required "@id" (parts.findSome? fun | .id n => some n | _ => none)
    name := ← required "@name" (parts.findSome? fun | .name s => some s | _ => none)
    items := parts.filterMap fun | .item i => some i | _ => none }

def read : Place → Source → Except Markup.Fault MessageDecl := Schema.read ⟨slot, some body⟩ build

end MessagePart

def readEnums : Place → Source → Except Markup.Fault (List EnumDecl) :=
  Schema.read ⟨fun
    | "enum" => some ⟨EnumPart.read, true⟩
    | _ => none, none⟩ .ok

def readMessages : Place → Source → Except Markup.Fault (List MessageDecl) :=
  Schema.read ⟨fun
    | "message" => some ⟨MessagePart.read, true⟩
    | _ => none, none⟩ .ok

inductive DocumentPart
  | included (s : String)
  | version (n : Option UInt32)
  | number (n : Option UInt32)
  | enums (es : List EnumDecl)
  | messages (ms : List MessageDecl)

namespace DocumentPart

def slot : String → Option (Slot DocumentPart)
  | "include" => some ⟨fun _ s => s.readText.map .included, true⟩
  | "version" => some (optional .version Source.readWord)
  | "dialect" => some (optional .number Source.readWord)
  | "enums" => some ⟨fun place s => (readEnums place s).map .enums, false⟩
  | "messages" => some ⟨fun place s => (readMessages place s).map .messages, false⟩
  | _ => none

def build (parts : List DocumentPart) : Except Markup.Fault Document :=
  .ok {
    includes := parts.filterMap fun | .included s => some s | _ => none
    version := (parts.findSome? fun | .version n => some n | _ => none).join
    number := (parts.findSome? fun | .number n => some n | _ => none).join
    enums := (parts.findSome? fun | .enums es => some es | _ => none).getD []
    messages := (parts.findSome? fun | .messages ms => some ms | _ => none).getD [] }

end DocumentPart

namespace Document

/-- The document is the first element; blank text may stand before it, and what follows it does
not count. -/
def ofContent : Content → Except Markup.Fault Document
  | .text value rest => do
    let s ← value
    if s.all Text.isSpace then ofContent rest else .error (.wrongType s .definition)
  | .element tag inner _ => do
    tag.check
    DocumentPart.build (← Schema.values ⟨DocumentPart.slot, none⟩ none tag inner)
  | .failed fault => .error fault
  | .ended => .error .noElement
  | .closed _ => .error .noElement

def parse (source : String) : Except Markup.Fault Document :=
  ofContent (Content.ofDocument source.toList)

end Document

end DialectBindings.Definition
