import DialectBindings.Proofs.Definitions
import DialectBindings.Proofs.Identifiers
import DialectBindings.Proofs.Outline

/-!
# What the descriptors say of the lines

The descriptors of a module and its lines are made from the dialect on two ways. Both tell of the
same enums, commands and messages in the same order: the descriptors are read off the outline of
the lines.
-/

set_option autoImplicit false

namespace DialectBindings.Bindings
open Identifier Listing Results

def Starts (front line : String) : Prop := ∃ rest, line = front ++ rest

def Noted (margin : String) (lines : List String) : Prop :=
  ∀ line ∈ lines, Starts (margin ++ "/**") line ∨ Starts (margin ++ " *") line

def Inside (lines : List String) : Prop := ∀ line ∈ lines, line = "" ∨ Starts "  " line

def constantFronts : List String :=
  ["  static MSG_ID = ", "  static MSG_NAME = ", "  static PAYLOAD_LENGTH = ",
    "  static MAGIC_NUMBER = "]

def EnumPart.summary (p : EnumPart) : EnumSummary := ⟨p.name, p.members.map (·.name)⟩

/-- An outline that tells of what descriptors tell of, and of nothing else. -/
structure Outline.Describes (o : Outline) (s : Descriptors) : Prop where
  header : ∀ line ∈ o.header, line = "" ∨ Starts "//" line
  enums : o.enums.map EnumPart.summary = s.enums
  /-- Command by command, a class names the member line that has the value of the id. -/
  commands : ∀ part ∈ o.enums, part.name = commandEnum →
    part.members.map (fun m => ⟨m.name, m.value⟩) = s.commands ∧
      o.commands.map (fun c => (c.title, c.member)) =
        part.members.map fun m => (commandClass m.name, member part.name m.name)
  no_commands : (∀ part ∈ o.enums, part.name ≠ commandEnum) → s.commands = [] ∧ o.commands = []
  command_registry : o.hasCommands = true ↔ ∃ part ∈ o.enums, part.name = commandEnum
  messages : o.messages.map (·.summary) = s.messages
  enum_notes : ∀ part ∈ o.enums, Noted "" part.notes ∧ ∀ m ∈ part.members, Noted "  " m.notes
  command_inside : ∀ part ∈ o.commands, Noted "" part.notes ∧ Inside part.accessors
  message_inside : ∀ part ∈ o.messages, Noted "" part.notes ∧ Inside part.body ∧
    ∀ row ∈ part.rows, Starts "    new MavLinkPacketField(" row
  /-- A message class declares each of its constants once. -/
  constants : ∀ part ∈ o.messages, ∀ front ∈ constantFronts, ∀ line ∈ part.body,
    ¬ Starts front line

theorem starts_iff {front line : String} : Starts front line ↔ front.toList <+: line.toList := by
  constructor
  · rintro ⟨rest, rfl⟩
    rw [String.toList_append]
    exact List.prefix_append _ _
  · rintro ⟨rest, h⟩
    refine ⟨String.ofList rest, String.toList_inj.1 ?_⟩
    rw [String.toList_append, String.toList_ofList, h]

instance (front line : String) : Decidable (Starts front line) :=
  decidable_of_iff _ starts_iff.symm

theorem starts_self (line : String) : Starts line line := ⟨"", String.append_empty.symm⟩

theorem Starts.append {front line : String} (h : Starts front line) (rest : String) :
    Starts front (line ++ rest) := by
  obtain ⟨text, rfl⟩ := h
  exact ⟨text ++ rest, String.append_assoc⟩

theorem starts_append (front rest : String) : Starts front (front ++ rest) := ⟨rest, rfl⟩

theorem Starts.total {front other line : String} (h : Starts front line) (ho : Starts other line) :
    front.toList <+: other.toList ∨ other.toList <+: front.toList :=
  List.prefix_or_prefix_of_prefix (starts_iff.1 h) (starts_iff.1 ho)

theorem notes_noted (level : Nat) (paragraphs : List String) :
    Noted (margin level) (notes level paragraphs) := by
  intro line hl
  rw [notes, comment] at hl
  obtain ⟨text, ht, rfl⟩ := List.mem_map.1 hl
  split at ht
  · cases ht
  · rw [List.mem_append, List.mem_cons, List.mem_map, List.mem_singleton] at ht
    obtain (rfl | ⟨l, -, rfl⟩) | rfl := ht
    · rw [placed_of_ne (by decide)]
      exact .inl (starts_self _)
    · have hs : " * " ++ String.ofList (guarded l) = " *" ++ (" " ++ String.ofList (guarded l)) := by
        rw [← String.append_assoc]
        rfl
      rw [hs, placed_of_ne (by simp), ← String.append_assoc]
      exact .inr (starts_append _ _)
    · have hs : " */" = " *" ++ "/" := rfl
      rw [hs, placed_of_ne (by decide), ← String.append_assoc]
      exact .inr (starts_append _ _)

theorem header_starts (d : Dialect) (moduleName : String) :
    ∀ line ∈ linesFrom 0 (header d moduleName), line = "" ∨ Starts "//" line := by
  have hs : ∀ rest, Starts "//" ("// Generated from " ++ rest) := fun rest =>
    Starts.append (by decide) rest
  have hi : ∀ rest, Starts "//" ("// includes: " ++ rest) := fun rest =>
    Starts.append (by decide) rest
  have hv : ∀ rest, Starts "//" ("// version: " ++ rest) := fun rest =>
    Starts.append (by decide) rest
  have hd : ∀ rest, Starts "//" ("// dialect: " ++ rest) := fun rest =>
    Starts.append (by decide) rest
  rw [header]
  cases d.includes.isEmpty <;> cases d.version <;> cases d.number <;>
    simp [placed_zero, hs, hi, hv, hd, Starts.append]

theorem accessorLines_lines (a : Accessor) :
    linesFrom 1 (accessorLines a) =
      "" :: (notes 1 (a.param.description :: (a.param.units.map ("@units " ++ ·)).toList) ++
        ["  " ++ ("get " ++ a.name ++ "() \x7b"),
          "    " ++ ("return this._param" ++ toString a.param.index.toNat), "  \x7d",
          "  " ++ ("set " ++ a.name ++ "(value: number) \x7b"),
          "    " ++ ("this._param" ++ toString a.param.index.toNat ++ " = value"), "  \x7d"]) := by
  simp [accessorLines, indented, linesFrom, written, nextLevel, notes, placed_one, placed_two,
    ← String.append_assoc]

theorem messageConstructor_lines (d : Dialect) (m : Message) :
    linesFrom 1 (messageConstructor d m) =
      ["  constructor() \x7b", "    super()"] ++
        m.fields.map (fun f =>
          "    " ++ ("this." ++ camel f.name ++ " = " ++ (propertyType d f).2)) ++ ["  \x7d"] := by
  have hb := balanced_texts (fun f => "this." ++ camel f.name ++ " = " ++ (propertyType d f).2)
    m.fields
  rw [messageConstructor, List.cons_append, linesFrom_line,
    linesFrom_indented (balanced_cons (balanced_line _) hb), linesFrom_line, linesFrom_texts]
  simp [placed_one, placed_two]

theorem property_lines (d : Dialect) (f : Field) :
    linesFrom 1 (property d f) =
      "" :: (notes 1 (f.description :: (f.units.map ("Units: " ++ ·)).toList) ++
        ["  " ++ (camel f.name ++ ": " ++ (propertyType d f).1)]) := by
  simp [property, notes, placed_one]

/-- What the lines inside a message class start with, apart from those of its properties. -/
def bodyFronts : List String := ["  constructor", "    ", "  \x7d", "  /**", "   *"]

theorem body_line {d : Dialect} {m : Message} {line : String} (h : line ∈ (messagePart d m).body) :
    line = "" ∨ (∃ front ∈ bodyFronts, Starts front line) ∨
      ∃ (f : Field) (type : String), line = "  " ++ (camel f.name ++ ": " ++ type) := by
  change line ∈ linesFrom 1 (messageConstructor d m ++ m.fields.flatMap (property d)) at h
  rw [linesFrom_append_of_balanced (messageConstructor_balanced d m),
    linesFrom_flatMap (property_balanced d), messageConstructor_lines] at h
  obtain h | h := List.mem_append.1 h
  · right
    left
    rw [List.mem_append, List.mem_append, List.mem_map, List.mem_singleton] at h
    obtain (h | ⟨f, -, rfl⟩) | rfl := h
    · rw [List.mem_cons, List.mem_singleton] at h
      obtain rfl | rfl := h
      · exact ⟨"  constructor", by decide, by decide⟩
      · exact ⟨"    ", by decide, by decide⟩
    · exact ⟨"    ", by decide, starts_append _ _⟩
    · exact ⟨"  \x7d", by decide, starts_self _⟩
  · obtain ⟨f, -, h⟩ := List.mem_flatMap.1 h
    rw [property_lines, List.mem_cons, List.mem_append, List.mem_singleton] at h
    obtain rfl | h | rfl := h
    · exact .inl rfl
    · obtain h | h := notes_noted 1 _ line h
      · exact .inr (.inl ⟨"  /**", by decide, h⟩)
      · exact .inr (.inl ⟨"   *", by decide, h⟩)
    · exact .inr (.inr ⟨f, _, rfl⟩)

theorem body_inside (d : Dialect) (m : Message) : Inside (messagePart d m).body := by
  intro line h
  obtain rfl | ⟨front, hf, hs⟩ | ⟨f, type, rfl⟩ := body_line h
  · exact .inl rfl
  · have hin : ∀ front ∈ bodyFronts, Starts "  " front := by decide
    obtain ⟨rest, rfl⟩ := hin front hf
    obtain ⟨more, rfl⟩ := hs
    exact .inr ((starts_append _ _).append more)
  · exact .inr (starts_append _ _)

theorem not_prefix_of_colon {a b name rest : List Char} (ha : ':' ∉ a) (hn : '_' ∉ name) :
    ¬ a ++ '_' :: b <+: name ++ ':' :: rest := by
  rintro ⟨t, h⟩
  rw [List.append_assoc, List.cons_append] at h
  obtain ⟨c, rfl, hc⟩ | ⟨c, rfl, hc⟩ := List.append_eq_append_iff.1 h
  · cases c with
    | nil => cases hc
    | cons x c =>
      obtain ⟨rfl, -⟩ := List.cons.inj hc
      exact hn (by simp)
  · cases c with
    | nil => cases hc
    | cons x c =>
      obtain ⟨rfl, -⟩ := List.cons.inj hc
      exact ha (by simp)

theorem constantFronts_underscore {front : String} (h : front ∈ constantFronts) :
    ∃ a b, front.toList = ' ' :: ' ' :: (a ++ '_' :: b) ∧ ':' ∉ a := by
  rw [constantFronts, List.mem_cons, List.mem_cons, List.mem_cons, List.mem_singleton] at h
  obtain rfl | rfl | rfl | rfl := h
  · exact ⟨"static MSG".toList, "ID = ".toList, by decide, by decide⟩
  · exact ⟨"static MSG".toList, "NAME = ".toList, by decide, by decide⟩
  · exact ⟨"static PAYLOAD".toList, "LENGTH = ".toList, by decide, by decide⟩
  · exact ⟨"static MAGIC".toList, "NUMBER = ".toList, by decide, by decide⟩

theorem property_not_constant {front : String} (hf : front ∈ constantFronts) (name type : String) :
    ¬ Starts front ("  " ++ (camel name ++ ": " ++ type)) := by
  obtain ⟨a, b, he, ha⟩ := constantFronts_underscore hf
  have hl : ("  " ++ (camel name ++ ": " ++ type)).toList =
      ' ' :: ' ' :: (camelChars name.toList ++ ':' :: ' ' :: type.toList) := by
    simp [camel]
  rw [starts_iff, he, hl, List.cons_prefix_cons, List.cons_prefix_cons]
  rintro ⟨-, -, h⟩
  exact not_prefix_of_colon ha (not_mem_camelChars name.toList) h

theorem body_not_constant {d : Dialect} {m : Message} {front line : String}
    (hf : front ∈ constantFronts) (h : line ∈ (messagePart d m).body) : ¬ Starts front line := by
  obtain rfl | ⟨other, ho, hs⟩ | ⟨f, type, rfl⟩ := body_line h
  · revert front
    decide
  · have hne : ∀ front ∈ constantFronts, ∀ other ∈ bodyFronts,
        ¬ (front.toList <+: other.toList ∨ other.toList <+: front.toList) := by
      decide
    exact fun hc => hne front hf other ho (hc.total hs)
  · exact property_not_constant hf f.name type

theorem row_starts (offset : Nat) (f : Field) :
    Starts "    new MavLinkPacketField(" ("    " ++ fieldRow offset f) := by
  have hs : ∀ cells close, Starts "    new MavLinkPacketField("
      ("    " ++ ("new MavLinkPacketField(" ++ cells ++ close)) := by
    intro cells close
    rw [← String.append_assoc, ← String.append_assoc]
    exact Starts.append (Starts.append (by decide) cells) close
  exact hs _ _

theorem accessors_inside (e : Entry) : Inside (commandPart e).accessors := by
  intro line h
  change line ∈ linesFrom 1 ((accessors e).flatMap accessorLines) at h
  rw [linesFrom_flatMap accessorLines_balanced] at h
  obtain ⟨a, -, h⟩ := List.mem_flatMap.1 h
  rw [accessorLines_lines, List.mem_cons, List.mem_append] at h
  obtain rfl | h | h := h
  · exact .inl rfl
  · obtain ⟨rest, rfl⟩ | ⟨rest, rfl⟩ := notes_noted 1 _ line h
    · exact .inr (Starts.append (by decide) rest)
    · exact .inr (Starts.append (by decide) rest)
  · have hs : ∀ rest, Starts "  " ("    " ++ rest) := fun rest => Starts.append (by decide) rest
    have he : Starts "  " "  \x7d" := by decide
    simp only [List.mem_cons, List.not_mem_nil, or_false] at h
    obtain rfl | rfl | rfl | rfl | rfl | rfl := h
    · exact .inr (starts_append _ _)
    · exact .inr (hs _)
    · exact .inr he
    · exact .inr (starts_append _ _)
    · exact .inr (hs _)
    · exact .inr he

theorem find?_filter_of_mem {enums : List Enum} {e : Enum} (hn : (enums.map (·.name)).Nodup)
    (he : e ∈ enums) (hc : e.name = commandEnum) :
    enums.find? Enum.isCommands = some e ∧ enums.filter Enum.isCommands = [e] := by
  have hi : e.isCommands = true := by simpa [Enum.isCommands] using hc
  induction enums with
  | nil => cases he
  | cons f enums ih =>
    rw [List.map_cons, List.nodup_cons] at hn
    rcases List.mem_cons.1 he with rfl | he
    · have hrest : enums.filter Enum.isCommands = [] := by
        rw [List.filter_eq_nil_iff]
        intro g hg hgc
        have hg' : g.name = commandEnum := by simpa [Enum.isCommands] using hgc
        exact hn.1 (List.mem_map.2 ⟨g, hg, hg'.trans hc.symm⟩)
      rw [List.find?_cons_of_pos hi, List.filter_cons_of_pos hi, hrest]
      exact ⟨rfl, rfl⟩
    · have hf : ¬ f.isCommands = true := by
        intro hfc
        have hf' : f.name = commandEnum := by simpa [Enum.isCommands] using hfc
        exact hn.1 (List.mem_map.2 ⟨e, he, hc.trans hf'.symm⟩)
      rw [List.find?_cons_of_neg hf, List.filter_cons_of_neg hf]
      exact ih hn.2 he

theorem outline_commands {d : Dialect} {e : Enum} (hn : (d.enums.map (·.name)).Nodup)
    (he : e ∈ d.enums) (hc : e.name = commandEnum) (moduleName : String) :
    d.descriptors.commands = e.entries.map Entry.commandSummary ∧
      (outline d moduleName).commands = e.entries.map commandPart := by
  obtain ⟨hfind, hfilter⟩ := find?_filter_of_mem hn he hc
  constructor
  · rw [Dialect.descriptors, hfilter, List.flatMap_singleton]
  · rw [outline, Dialect.commands?, hfind]
    rfl

theorem outline_no_commands {d : Dialect} (h : ∀ e ∈ d.enums, e.name ≠ commandEnum)
    (moduleName : String) :
    d.descriptors.commands = [] ∧ (outline d moduleName).commands = [] ∧
      (outline d moduleName).hasCommands = false := by
  have hc : ∀ e ∈ d.enums, ¬ e.isCommands = true := by simpa [Enum.isCommands] using h
  have hfind : d.commands? = none := List.find?_eq_none.2 hc
  refine ⟨?_, ?_, ?_⟩
  · rw [Dialect.descriptors, List.filter_eq_nil_iff.2 hc]
    rfl
  · rw [outline, hfind]
    rfl
  · rw [outline, hfind]
    rfl

theorem outline_describes {d : Dialect} (hn : (d.enums.map (·.name)).Nodup)
    (moduleName : String) : (outline d moduleName).Describes d.descriptors where
  header := header_starts d moduleName
  enums := by
    simp [outline, Dialect.descriptors, enumPart, EnumPart.summary, Enum.summary, memberPart,
      Function.comp_def]
  commands part hp hc := by
    obtain ⟨e, he, rfl⟩ := List.mem_map.1 hp
    obtain ⟨hd, ho⟩ := outline_commands hn he hc moduleName
    have hname : e.name = commandEnum := hc
    rw [hd, ho]
    simp [enumPart, memberPart, Entry.commandSummary, commandPart, hname]
  no_commands h := by
    have h' : ∀ e ∈ d.enums, e.name ≠ commandEnum := fun e he =>
      h (enumPart e) (List.mem_map_of_mem he)
    obtain ⟨hd, ho, -⟩ := outline_no_commands h' moduleName
    exact ⟨hd, ho⟩
  command_registry := by
    constructor
    · intro h
      obtain ⟨e, he⟩ := Option.isSome_iff_exists.1 h
      exact ⟨enumPart e, List.mem_map_of_mem (List.mem_of_find?_eq_some he), commands?_name he⟩
    · rintro ⟨part, hp, hc⟩
      obtain ⟨e, he, rfl⟩ := List.mem_map.1 hp
      exact Option.isSome_iff_exists.2 ⟨e, (find?_filter_of_mem hn he hc).1⟩
  messages := by
    simp [outline, Dialect.descriptors, messagePart, Function.comp_def]
  enum_notes part hp := by
    obtain ⟨e, -, rfl⟩ := List.mem_map.1 hp
    refine ⟨notes_noted 0 _, fun m hm => ?_⟩
    obtain ⟨entry, -, rfl⟩ := List.mem_map.1 hm
    exact notes_noted 1 _
  command_inside part hp := by
    rw [outline] at hp
    cases hd : d.commands? with
    | none => simp [hd] at hp
    | some enum =>
      rw [hd] at hp
      obtain ⟨e, -, rfl⟩ := List.mem_map.1 hp
      exact ⟨notes_noted 0 _, accessors_inside e⟩
  message_inside part hp := by
    obtain ⟨m, -, rfl⟩ := List.mem_map.1 hp
    refine ⟨notes_noted 0 _, body_inside d m, fun row hr => ?_⟩
    obtain ⟨cell, -, rfl⟩ := List.mem_map.1 hr
    exact row_starts cell.1 cell.2
  constants part hp front hf line hl := by
    obtain ⟨m, -, rfl⟩ := List.mem_map.1 hp
    exact body_not_constant hf hl

/-- Whatever source the engine accepts, what it describes is what its lines show. -/
theorem generate_describes {source moduleName : String} {g : Generated}
    (h : Engine.bindings.generate source moduleName = .ok g) :
    ∃ o : Outline, g.lines = o.lines ∧ o.Describes g.descriptors := by
  obtain ⟨d, hd, hdesc, hlines⟩ := Engine.bindings_ok h
  obtain ⟨document, -, hc⟩ := Dialect.parse_ok hd
  obtain ⟨hn, -, -⟩ := Definition.Document.check_ok hc
  rw [hdesc, hlines, lines_outline]
  exact ⟨outline d moduleName, rfl, outline_describes hn moduleName⟩

theorem generate_describes_command :
    let source := "<mavlink><enums><enum name='MAV_CMD'><entry name='MAV_CMD_3D' value='7'/>" ++
      "</enum></enums><messages><message id='1' name='A'><wip/></message></messages></mavlink>"
    ∃ g, Engine.bindings.generate source "a" = .ok g ∧
      ∃ o : Outline, g.lines = o.lines ∧ o.Describes g.descriptors := by
  intro source
  have h : (Engine.bindings.generate source "a").isOk = true := by decide +kernel
  obtain ⟨g, hg⟩ := exists_ok h
  exact ⟨g, hg, generate_describes hg⟩

end DialectBindings.Bindings
