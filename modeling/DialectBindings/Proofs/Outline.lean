import DialectBindings.Bindings.Module
import DialectBindings.Descriptors
import DialectBindings.Proofs.Definitions
import DialectBindings.Proofs.Listings

/-!
# The outline of a module

The lines of a module as its reader finds them: declarations one after the other, each after its
comment, and for every declaration the lines that matter with what they say. The lines of a
dialect are those of its outline, and nothing is between them.
-/

set_option autoImplicit false

namespace DialectBindings.Bindings
open Identifier Listing

structure MemberPart where
  notes : List String
  name : String
  value : UInt32

def MemberPart.lines (enum : String) (p : MemberPart) : List String :=
  p.notes ++ ["  " ++ member enum p.name ++ " = " ++ toString p.value.toNat ++ ","]

structure EnumPart where
  notes : List String
  name : String
  members : List MemberPart

def EnumPart.lines (p : EnumPart) : List String :=
  p.notes ++ ["export enum " ++ pascal p.name ++ " \x7b"] ++
    p.members.flatMap (MemberPart.lines p.name) ++ ["\x7d", ""]

/-- How a member of the enum of commands is referred to: in brackets when it is in quotes. -/
def reference (member : String) : String :=
  match member.toList with
  | '\'' :: _ => "MavCmd[" ++ member ++ "]"
  | _ => "MavCmd." ++ member

/-- A command class, which names a member of the enum of commands. -/
structure CommandPart where
  notes : List String
  title : String
  member : String
  accessors : List String

def CommandPart.lines (p : CommandPart) : List String :=
  p.notes ++ ["export class " ++ p.title ++ " extends CommandLong \x7b",
    "  constructor(targetSystem = 1, targetComponent = 1) \x7b", "    super()",
    "    this.targetSystem = targetSystem", "    this.targetComponent = targetComponent",
    "    this.command = " ++ reference p.member ++ " as number", "  \x7d"] ++
    p.accessors ++ ["\x7d", ""]

def CommandPart.row (p : CommandPart) : String :=
  "  [" ++ reference p.member ++ "]: " ++ p.title ++ ","

/-- A message class: its constants, the rows of its field table, and its members. -/
structure MessagePart where
  notes : List String
  summary : MessageSummary
  payloadLength : Nat
  rows : List String
  body : List String

def MessagePart.constants (p : MessagePart) : List String :=
  ["  static MSG_ID = " ++ toString p.summary.id.toNat,
    "  static MSG_NAME = '" ++ p.summary.name ++ "'",
    "  static PAYLOAD_LENGTH = " ++ toString p.payloadLength] ++
    p.summary.magic.toList.map fun n => "  static MAGIC_NUMBER = " ++ toString n.toNat

def MessagePart.lines (p : MessagePart) : List String :=
  p.notes ++ ["export class " ++ pascal p.summary.name ++ " extends MavLinkData \x7b"] ++
    p.constants ++ ["", "  static FIELDS = ["] ++ p.rows ++ ["  ]", ""] ++ p.body ++ ["\x7d", ""]

def MessagePart.row (p : MessagePart) : String :=
  "  '" ++ p.summary.name ++ "': " ++ pascal p.summary.name ++ ","

structure Outline where
  header : List String
  enums : List EnumPart
  commands : List CommandPart
  messages : List MessagePart
  /-- Whether there is a registry of commands. -/
  hasCommands : Bool

def Outline.commandRegistry (o : Outline) : List String :=
  if o.hasCommands then
    ["", "export const COMMANDS: MavLinkCommandRegistry = \x7b"] ++
      o.commands.map CommandPart.row ++ ["\x7d"]
  else []

def Outline.lines (o : Outline) : List String :=
  o.header ++ o.enums.flatMap EnumPart.lines ++ o.commands.flatMap CommandPart.lines ++
    o.messages.flatMap MessagePart.lines ++
    ["export const REGISTRY: MavLinkPacketRegistry = \x7b"] ++
    o.messages.map MessagePart.row ++ ["\x7d"] ++ o.commandRegistry

def notes (level : Nat) (paragraphs : List String) : List String :=
  (comment paragraphs).map (placed level)

def memberPart (e : Entry) : MemberPart where
  notes := notes 1 (e.description :: wipTag e.wip ++ (e.deprecated.map deprecationTag).toList)
  name := e.name
  value := e.value

def enumPart (e : Enum) : EnumPart where
  notes := notes 0 (e.description :: (e.deprecated.map deprecationTag).toList)
  name := e.name
  members := e.entries.map memberPart

def commandPart (e : Entry) : CommandPart where
  notes := notes 0 (e.description :: (e.deprecated.map deprecationTag).toList)
  title := commandClass e.name
  member := member commandEnum e.name
  accessors := linesFrom 1 ((accessors e).flatMap accessorLines)

def messagePart (d : Dialect) (m : Message) : MessagePart where
  notes := notes 0 (m.description :: wipTag m.wip ++ (m.deprecated.map deprecationTag).toList)
  summary := m.summary
  payloadLength := m.payloadLength
  rows := (withOffsets 0 m.wireFields).map fun row => "    " ++ fieldRow row.1 row.2
  body := linesFrom 1 (messageConstructor d m ++ m.fields.flatMap (property d))

def outline (d : Dialect) (moduleName : String) : Outline where
  header := linesFrom 0 (header d moduleName)
  enums := d.enums.map enumPart
  commands := d.commands?.elim [] fun enum => enum.entries.map commandPart
  messages := d.messages.map (messagePart d)
  hasCommands := d.commands?.isSome

theorem memberAccess_eq (enum entry : String) :
    memberAccess "MavCmd" enum entry = reference (member enum entry) := by
  rw [memberAccess, reference, member, String.toList_ofList]
  split <;> simp_all

theorem enumMember_balanced (enum : String) (e : Entry) : Balanced (enumMember enum e) :=
  fun _ => rfl

theorem enumMember_lines (enum : String) (e : Entry) :
    linesFrom 1 (enumMember enum e) = (memberPart e).lines enum := by
  simp [enumMember, memberLine, MemberPart.lines, memberPart, notes, placed_one,
    ← String.append_assoc]

theorem enumDeclaration_lines (e : Enum) :
    linesFrom 0 (enumDeclaration e) = (enumPart e).lines := by
  have hb := balanced_flatMap (enumMember_balanced e.name) e.entries
  rw [enumDeclaration, List.append_assoc, List.cons_append, List.cons_append, List.nil_append,
    linesFrom_doc, linesFrom_line, linesFrom_indented hb,
    linesFrom_flatMap (enumMember_balanced e.name)]
  simp [EnumPart.lines, enumPart, notes, placed_zero, enumMember_lines, List.flatMap_map]

theorem accessorLines_balanced (a : Accessor) : Balanced (accessorLines a) := fun _ => rfl

theorem commandConstructor_balanced (enum : Enum) (e : Entry) :
    Balanced (commandConstructor enum e) :=
  fun _ => rfl

theorem commandConstructor_texts (enum : Enum) (e : Entry) :
    linesFrom 1 (commandConstructor enum e) =
      ["  constructor(targetSystem = 1, targetComponent = 1) \x7b", "    super()",
        "    this.targetSystem = targetSystem", "    this.targetComponent = targetComponent",
        "    this.command = " ++ commandAccess enum e ++ " as number", "  \x7d"] := by
  rw [commandConstructor, List.cons_append, linesFrom_line, linesFrom_indented fun _ => rfl]
  simp [placed_one, placed_two, ← String.append_assoc]

theorem commandConstructor_lines {enum : Enum} (h : enum.name = commandEnum) (e : Entry) :
    linesFrom 1 (commandConstructor enum e) =
      ["  constructor(targetSystem = 1, targetComponent = 1) \x7b", "    super()",
        "    this.targetSystem = targetSystem", "    this.targetComponent = targetComponent",
        "    this.command = " ++ reference (member commandEnum e.name) ++ " as number",
        "  \x7d"] := by
  have ht : pascal commandEnum = "MavCmd" := by decide
  rw [commandConstructor_texts, commandAccess, h, ht, memberAccess_eq]

theorem commandDeclaration_parts (enum : Enum) (e : Entry) :
    linesFrom 0 (commandDeclaration enum e) =
      notes 0 (e.description :: (e.deprecated.map deprecationTag).toList) ++
        ["export class " ++ commandClass e.name ++ " extends CommandLong \x7b"] ++
        linesFrom 1 (commandConstructor enum e) ++
        linesFrom 1 ((accessors e).flatMap accessorLines) ++ ["\x7d", ""] := by
  have ha := balanced_flatMap accessorLines_balanced (accessors e)
  rw [commandDeclaration, List.append_assoc, List.cons_append, List.cons_append, List.nil_append,
    linesFrom_doc, linesFrom_line,
    linesFrom_indented (balanced_append (commandConstructor_balanced enum e) ha),
    linesFrom_append_of_balanced (commandConstructor_balanced enum e)]
  simp [notes, placed_zero]

theorem commandDeclaration_lines {enum : Enum} (h : enum.name = commandEnum) (e : Entry) :
    linesFrom 0 (commandDeclaration enum e) = (commandPart e).lines := by
  rw [commandDeclaration_parts, commandConstructor_lines h]
  simp [CommandPart.lines, commandPart]

theorem commandRow_eq {enum : Enum} (h : enum.name = commandEnum) (e : Entry) :
    placed 1 (commandRow enum e) = (commandPart e).row := by
  have ht : pascal commandEnum = "MavCmd" := by decide
  rw [commandRow, commandAccess, h, ht, memberAccess_eq]
  simp [CommandPart.row, commandPart, placed_one, ← String.append_assoc]

theorem fieldTable_eq (m : Message) :
    fieldTable m = .line "static FIELDS = [" ::
      indented ((withOffsets 0 m.wireFields).map fun row => .line (fieldRow row.1 row.2)) ++
      [.line "]"] :=
  rfl

theorem fieldTable_balanced (m : Message) : Balanced (fieldTable m) := by
  have hb := balanced_texts (fun row => fieldRow row.1 row.2) (withOffsets 0 m.wireFields)
  rw [fieldTable_eq]
  exact balanced_append (balanced_cons (balanced_line _) (balanced_indented hb)) (balanced_line _)

theorem fieldRow_text (offset : Nat) (f : Field) :
    "    " ++ fieldRow offset f =
      "    new MavLinkPacketField('" ++ f.name ++ "', '" ++ camel f.name ++ "', " ++
        toString offset ++ ", " ++ (if f.isExtension then "true" else "false") ++ ", " ++
        toString f.size ++ ", '" ++ f.type.displayName ++ "', '" ++ f.units.getD "" ++ "')," := by
  unfold fieldRow
  simp [← String.toList_inj, quotedName, String.intercalate_cons_cons,
    String.intercalate_singleton]

theorem fieldRow_ne (offset : Nat) (f : Field) : fieldRow offset f ≠ "" := by
  intro h
  exact absurd (String.append_eq_empty_iff.1 h).2 (by decide)

theorem fieldTable_lines (m : Message) :
    linesFrom 1 (fieldTable m) =
      ["  static FIELDS = ["] ++
        (withOffsets 0 m.wireFields).map (fun row => "    " ++ fieldRow row.1 row.2) ++
        ["  ]"] := by
  have hb := balanced_texts (fun row => fieldRow row.1 row.2) (withOffsets 0 m.wireFields)
  rw [fieldTable_eq, List.cons_append, linesFrom_line, linesFrom_indented hb, linesFrom_texts]
  simp [placed_one, placed_two, fieldRow_ne]

theorem messageConstants_balanced (m : Message) : Balanced (messageConstants m) := by
  intro level
  rw [messageConstants]
  cases m.magic <;> rfl

theorem messageConstants_lines (d : Dialect) (m : Message) :
    linesFrom 1 (messageConstants m) = (messagePart d m).constants := by
  rw [messageConstants, MessagePart.constants, messagePart, Message.summary]
  cases m.magic <;> simp [placed_one, ← String.append_assoc]

theorem messageConstructor_balanced (d : Dialect) (m : Message) :
    Balanced (messageConstructor d m) := by
  refine balanced_append (balanced_cons (balanced_line _) (balanced_indented ?_)) (balanced_line _)
  refine balanced_cons (balanced_line _) ?_
  exact balanced_texts (fun f => "this." ++ camel f.name ++ " = " ++ (propertyType d f).2) _

theorem property_balanced (d : Dialect) (f : Field) : Balanced (property d f) := fun _ => rfl

theorem messageDeclaration_eq (d : Dialect) (m : Message) :
    messageDeclaration d m =
      .doc (m.description :: wipTag m.wip ++ (m.deprecated.map deprecationTag).toList) ::
      .line ("export class " ++ pascal m.name ++ " extends MavLinkData \x7b") ::
      (indented (messageConstants m ++ ([.blank] ++ (fieldTable m ++ ([.blank] ++
        (messageConstructor d m ++ m.fields.flatMap (property d)))))) ++ [.line "\x7d", .blank]) := by
  simp only [messageDeclaration, List.append_assoc, List.cons_append, List.nil_append]

theorem messageDeclaration_lines (d : Dialect) (m : Message) :
    linesFrom 0 (messageDeclaration d m) = (messagePart d m).lines := by
  have hblank : Balanced [.blank] := fun _ => rfl
  have hbody := balanced_append (messageConstructor_balanced d m)
    (balanced_flatMap (property_balanced d) m.fields)
  have htable := balanced_append (fieldTable_balanced m) (balanced_append hblank hbody)
  have hinside := balanced_append (messageConstants_balanced m) (balanced_append hblank htable)
  rw [messageDeclaration_eq, linesFrom_doc, linesFrom_line, linesFrom_indented hinside,
    linesFrom_append_of_balanced (messageConstants_balanced m),
    linesFrom_append_of_balanced hblank, linesFrom_append_of_balanced (fieldTable_balanced m),
    linesFrom_append_of_balanced hblank, messageConstants_lines d, fieldTable_lines]
  simp [MessagePart.lines, messagePart, notes, placed_zero, Message.summary]

theorem messageRow_eq (d : Dialect) (m : Message) :
    placed 1 (messageRow m) = (messagePart d m).row := by
  simp [messageRow, MessagePart.row, messagePart, Message.summary, placed_one,
    ← String.append_assoc]

theorem commands?_name {d : Dialect} {enum : Enum} (h : d.commands? = some enum) :
    enum.name = commandEnum := by
  simpa [Enum.isCommands] using List.find?_some h

theorem commandRegistry_lines {enum : Enum} (h : enum.name = commandEnum) :
    linesFrom 0 (commandRegistry enum) =
      ["", "export const COMMANDS: MavLinkCommandRegistry = \x7b"] ++
        enum.entries.map (fun e => (commandPart e).row) ++ ["\x7d"] := by
  rw [commandRegistry, List.append_assoc, List.cons_append, List.cons_append, List.nil_append,
    linesFrom_blank, linesFrom_line, linesFrom_indented (balanced_texts (commandRow enum) _),
    linesFrom_texts]
  simp [placed_zero, commandRow_eq h]

theorem registries_eq (d : Dialect) :
    registries d = .line "export const REGISTRY: MavLinkPacketRegistry = \x7b" ::
      (indented (d.messages.map fun m => .line (messageRow m)) ++
        ([.line "\x7d"] ++ d.commands?.elim [] commandRegistry)) := by
  simp only [registries, List.append_assoc, List.cons_append]

theorem registries_lines (d : Dialect) (moduleName : String) :
    linesFrom 0 (registries d) =
      ["export const REGISTRY: MavLinkPacketRegistry = \x7b"] ++
        (outline d moduleName).messages.map MessagePart.row ++ ["\x7d"] ++
        (outline d moduleName).commandRegistry := by
  have hc : linesFrom 0 (d.commands?.elim [] commandRegistry) =
      (outline d moduleName).commandRegistry := by
    rw [Outline.commandRegistry, outline]
    cases hd : d.commands? with
    | none => rfl
    | some enum => simp [commandRegistry_lines (commands?_name hd)]
  rw [registries_eq, linesFrom_line, linesFrom_indented (balanced_texts messageRow _),
    linesFrom_append_of_balanced (balanced_line _), hc, linesFrom_texts]
  simp [placed_zero, messageRow_eq d, outline]

theorem lines_outline (d : Dialect) (moduleName : String) :
    lines d moduleName = (outline d moduleName).lines := by
  have hc : (d.commands?.elim [] fun enum => enum.entries.map (commandDeclaration enum)).flatMap
      (linesFrom 0) = (outline d moduleName).commands.flatMap CommandPart.lines := by
    rw [outline]
    cases hd : d.commands? with
    | none => rfl
    | some enum =>
      simp [List.flatMap_map, commandDeclaration_lines (commands?_name hd)]
  rw [lines, sections, Outline.lines]
  simp only [List.flatMap_append, List.flatMap_cons, List.flatMap_nil, List.append_nil, hc,
    registries_lines d moduleName]
  simp [outline, List.flatMap_map, enumDeclaration_lines, messageDeclaration_lines]

theorem generate_outline {source moduleName : String} {g : Generated}
    (h : Engine.bindings.generate source moduleName = .ok g) :
    ∃ d, Dialect.parse source = .ok d ∧ g.lines = (outline d moduleName).lines := by
  obtain ⟨d, hd, -, hlines⟩ := Engine.bindings_ok h
  exact ⟨d, hd, hlines.trans (lines_outline d moduleName)⟩

theorem outline_of_parse {source : String} {d : Dialect} (hd : Dialect.parse source = .ok d)
    (moduleName : String) : ∃ g, Engine.bindings.generate source moduleName = .ok g ∧
      g.lines = (outline d moduleName).lines := by
  obtain ⟨g, hg⟩ := Engine.bindings_of_parse hd moduleName
  obtain ⟨d', hd', hlines⟩ := generate_outline hg
  cases hd.symm.trans hd'
  exact ⟨g, hg, hlines⟩

end DialectBindings.Bindings
