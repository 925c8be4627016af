import DialectBindings.Proofs.Unbroken

/-!
# Texts between quotes

The names of messages, fields and members and the units of fields are put between quotes as they
are, and what they stand for is read back from the line. So each of these lines is read as it is
meant just when its texts are plain.
-/

set_option autoImplicit false

namespace DialectBindings

namespace Script
open Text Identifier

def spelled (parts : List Part) : String := String.ofList (parts.flatMap Part.chars)

@[simp] theorem spelled_nil : spelled [] = "" := rfl

@[simp] theorem spelled_code (text : String) (parts : List Part) :
    spelled (.code text :: parts) = text ++ spelled parts := by
  simp [spelled, Part.chars]

@[simp] theorem spelled_quoted (text : String) (parts : List Part) :
    spelled (.quoted text :: parts) = "'" ++ text ++ "'" ++ spelled parts := by
  simp [← String.toList_inj, spelled, Part.chars]

theorem spelled_append (parts more : List Part) :
    spelled (parts ++ more) = spelled parts ++ spelled more := by
  simp [spelled]

theorem isPlain_iff {s : List Char} :
    IsPlain s ↔ '\'' ∉ s ∧ '\\' ∉ s ∧ '\n' ∉ s ∧ '\r' ∉ s := by
  simp only [IsPlain, forall_and, List.forall_mem_ne']

theorem isPlain_camel {name : String} : IsPlain (camel name).toList ↔ IsPlain name.toList := by
  rw [camel, String.toList_ofList, isPlain_iff, isPlain_iff]
  simp only [mem_camelChars (x := '\'') (by decide), mem_camelChars (x := '\\') (by decide),
    mem_camelChars (x := '\n') (by decide), mem_camelChars (x := '\r') (by decide)]

theorem isPlain_append {s t : List Char} (hs : IsPlain s) (ht : IsPlain t) : IsPlain (s ++ t) :=
  List.forall_mem_append.2 ⟨hs, ht⟩

theorem isPlain_number (n : Nat) : IsPlain n.repr.toList := by
  rw [Nat.toList_repr]
  intro c hc
  have hd : c.isDigit = true := Nat.isDigit_of_mem_toDigits (by decide) (by decide) hc
  refine ⟨?_, ?_, ?_, ?_⟩ <;> rintro rfl <;> cases hd

/-- Code without quotes. -/
def Bare (s : String) : Prop := '\'' ∉ s.toList

instance (s : String) : Decidable (Bare s) := inferInstanceAs (Decidable (_ ∉ _))

theorem isClean_code {text : String} : (Part.code text).IsClean ↔ Bare text := Iff.rfl

theorem isClean_quoted {text : String} : (Part.quoted text).IsClean ↔ IsPlain text.toList := Iff.rfl

@[simp] theorem bare_append {s t : String} : Bare (s ++ t) ↔ Bare s ∧ Bare t := by
  simp [Bare]

theorem bare_of_plain {s : String} (h : IsPlain s.toList) : Bare s := (isPlain_iff.1 h).1

@[simp] theorem bare_number (n : Nat) : Bare n.repr := bare_of_plain (isPlain_number n)

@[simp] theorem bare_pascal {name : String} : Bare (pascal name) ↔ Bare name := by
  rw [Bare, pascal, String.toList_ofList, mem_pascalChars (by decide)]
  rfl

end Script

namespace Bindings
open Identifier Listing Script Text Results

def nameParts (m : Message) : List Part := [.code "  static MSG_NAME = ", .quoted m.name]

def keyParts (m : Message) : List Part :=
  [.code "  ", .quoted m.name, .code (": " ++ pascal m.name ++ ",")]

def rowParts (offset : Nat) (f : Field) : List Part :=
  [.code "    new MavLinkPacketField(", .quoted f.name, .code ", ", .quoted (camel f.name),
    .code (", " ++ toString offset ++ ", " ++ (if f.isExtension then "true" else "false") ++ ", " ++
      toString f.size ++ ", "),
    .quoted f.type.displayName, .code ", ", .quoted (f.units.getD ""), .code "),"]

def memberToken (enum entry : String) : Part :=
  let short := shortName enum.toList entry.toList
  if startsWithDigit short then .quoted (String.ofList short) else .code (String.ofList short)

def memberParts (enum : String) (e : Entry) : List Part :=
  [.code "  ", memberToken enum e.name, .code (" = " ++ toString e.value.toNat ++ ",")]

def referenceParts (entry : String) : List Part :=
  match (member commandEnum entry).toList with
  | '\'' :: _ => [.code "MavCmd[", memberToken commandEnum entry, .code "]"]
  | _ => [.code "MavCmd.", memberToken commandEnum entry]

def commandParts (e : Entry) : List Part :=
  .code "    this.command = " :: referenceParts e.name ++ [.code " as number"]

def commandKeyParts (e : Entry) : List Part :=
  .code "  [" :: referenceParts e.name ++ [.code ("]: " ++ commandClass e.name ++ ",")]

theorem nameParts_spelled (m : Message) :
    spelled (nameParts m) = "  static MSG_NAME = '" ++ m.name ++ "'" := by
  simp [nameParts, ← String.append_assoc]

theorem keyParts_spelled (d : Dialect) (m : Message) :
    spelled (keyParts m) = (messagePart d m).row := by
  simp [← String.toList_inj, keyParts, MessagePart.row, messagePart, Message.summary]

theorem rowParts_spelled (offset : Nat) (f : Field) :
    spelled (rowParts offset f) = "    " ++ fieldRow offset f := by
  rw [fieldRow_text]
  simp [← String.toList_inj, rowParts]

theorem memberToken_spelled (enum entry : String) (parts : List Part) :
    spelled (memberToken enum entry :: parts) = member enum entry ++ spelled parts := by
  simp only [memberToken, member, memberChars]
  split <;> simp [← String.toList_inj]

theorem memberParts_spelled (enum : String) (e : Entry) :
    spelled (memberParts enum e) =
      "  " ++ member enum e.name ++ " = " ++ toString e.value.toNat ++ "," := by
  simp [memberParts, memberToken_spelled, ← String.append_assoc]

theorem referenceParts_spelled (entry : String) :
    spelled (referenceParts entry) = reference (member commandEnum entry) := by
  rw [referenceParts]
  split
  · rename_i rest hm
    rw [reference, hm]
    simp [memberToken_spelled, ← String.append_assoc]
  · rename_i hm
    rw [reference]
    split
    · rename_i rest hq
      exact absurd hq (hm rest)
    · simp [memberToken_spelled]

/-- A line of a listing that is read as its parts are meant under a condition, and only then. -/
def Shows (lines : List String) (parts : List Part) (p : Prop) : Prop :=
  spelled parts ∈ lines ∧ (IsRead parts ↔ p)

/-- The lines of a dialect with texts between quotes, and when they are read as they are meant. -/
structure Quoted (d : Dialect) (lines : List String) : Prop where
  names : ∀ m ∈ d.messages, Shows lines (nameParts m) (IsPlain m.name.toList)
  keys : ∀ m ∈ d.messages, Shows lines (keyParts m) (IsPlain m.name.toList)
  rows : ∀ m ∈ d.messages, ∀ row ∈ withOffsets 0 m.wireFields,
    Shows lines (rowParts row.1 row.2)
      (IsPlain row.2.name.toList ∧ IsPlain (row.2.units.getD "").toList)
  members : ∀ e ∈ d.enums, ∀ entry ∈ e.entries,
    Shows lines (memberParts e.name entry) (memberToken e.name entry.name).IsClean
  commands : ∀ enum ∈ d.commands?, ∀ e ∈ enum.entries,
    Shows lines (commandParts e) (memberToken commandEnum e.name).IsClean ∧
      Shows lines (commandKeyParts e) (memberToken commandEnum e.name).IsClean

theorem nameParts_isRead (m : Message) : IsRead (nameParts m) ↔ IsPlain m.name.toList := by
  have hfront : Bare "  static MSG_NAME = " := by decide
  simp [isRead_iff, nameParts, isClean_code, isClean_quoted, hfront]

theorem keyParts_isRead (m : Message) : IsRead (keyParts m) ↔ IsPlain m.name.toList := by
  have hmargin : Bare "  " := by decide
  have hcolon : Bare ": " := by decide
  have hcomma : Bare "," := by decide
  have htitle : Bare (": " ++ pascal m.name ++ ",") ↔ Bare m.name := by simp [hcolon, hcomma]
  rw [isRead_iff, keyParts, List.forall_mem_cons, List.forall_mem_cons, List.forall_mem_singleton,
    isClean_code, isClean_code, isClean_quoted, htitle, and_iff_right hmargin]
  exact and_iff_left_of_imp bare_of_plain

theorem isPlain_displayName (t : FieldType) : IsPlain t.displayName.toList := by
  have hname : IsPlain t.scalar.wireName.toList := by cases t.scalar <;> decide
  have hopen : IsPlain "[".toList := by decide
  have hclose : IsPlain "]".toList := by decide
  rw [FieldType.displayName]
  split
  · rw [String.toList_append, String.toList_append, String.toList_append]
    exact isPlain_append (isPlain_append (isPlain_append hname hopen) (isPlain_number _)) hclose
  · exact hname

theorem rowParts_isRead (offset : Nat) (f : Field) :
    IsRead (rowParts offset f) ↔
      IsPlain f.name.toList ∧ IsPlain (f.units.getD "").toList := by
  have hfront : Bare "    new MavLinkPacketField(" := by decide
  have hcomma : Bare ", " := by decide
  have hback : Bare ")," := by decide
  have hsign : Bare (if f.isExtension then "true" else "false") := by
    split <;> decide
  simp [isRead_iff, rowParts, isClean_code, isClean_quoted, isPlain_camel, isPlain_displayName,
    hfront, hcomma, hback, hsign]

theorem bare_commandClass (entry : String) : Bare (commandClass entry) := by
  rw [commandClass_eq, Bare, String.toList_ofList, mem_pascalChars (by decide), commandName]
  split <;> simp

theorem memberParts_isRead (enum : String) (e : Entry) :
    IsRead (memberParts enum e) ↔ (memberToken enum e.name).IsClean := by
  have hmargin : Bare "  " := by decide
  have hequals : Bare " = " := by decide
  have hcomma : Bare "," := by decide
  simp [isRead_iff, memberParts, isClean_code, hmargin, hequals, hcomma]

theorem referenceParts_isClean (entry : String) :
    (∀ p ∈ referenceParts entry, p.IsClean) ↔ (memberToken commandEnum entry).IsClean := by
  have hopen : Bare "MavCmd[" := by decide
  have hclose : Bare "]" := by decide
  have hdot : Bare "MavCmd." := by decide
  rw [referenceParts]
  split <;> simp [isClean_code, hopen, hclose, hdot]

theorem commandParts_isRead (e : Entry) :
    IsRead (commandParts e) ↔ (memberToken commandEnum e.name).IsClean := by
  have hfront : Bare "    this.command = " := by decide
  have hback : Bare " as number" := by decide
  rw [isRead_iff, commandParts, List.forall_mem_append, List.forall_mem_cons,
    referenceParts_isClean]
  simp [isClean_code, hfront, hback]

theorem commandKeyParts_isRead (e : Entry) :
    IsRead (commandKeyParts e) ↔ (memberToken commandEnum e.name).IsClean := by
  have hopen : Bare "  [" := by decide
  have hclose : Bare "]: " := by decide
  have hcomma : Bare "," := by decide
  rw [isRead_iff, commandKeyParts, List.forall_mem_append, List.forall_mem_cons,
    referenceParts_isClean]
  simp [isClean_code, hopen, hclose, hcomma, bare_commandClass]

theorem commandParts_spelled (e : Entry) :
    spelled (commandParts e) =
      "    this.command = " ++ reference (member commandEnum e.name) ++ " as number" := by
  rw [commandParts, List.cons_append, spelled_code, spelled_append, referenceParts_spelled]
  simp [← String.append_assoc]

theorem commandKeyParts_spelled (e : Entry) :
    spelled (commandKeyParts e) = (commandPart e).row := by
  rw [commandKeyParts, List.cons_append, spelled_code, spelled_append, referenceParts_spelled]
  simp [CommandPart.row, commandPart, ← String.append_assoc]

theorem enumPart_mem {d : Dialect} (moduleName : String) {e : Enum} (he : e ∈ d.enums) :
    enumPart e ∈ (outline d moduleName).enums :=
  List.mem_map_of_mem he

theorem messagePart_mem {d : Dialect} (moduleName : String) {m : Message} (hm : m ∈ d.messages) :
    messagePart d m ∈ (outline d moduleName).messages :=
  List.mem_map_of_mem hm

theorem commandPart_mem {d : Dialect} (moduleName : String) {enum : Enum} {e : Entry}
    (hd : d.commands? = some enum) (he : e ∈ enum.entries) :
    commandPart e ∈ (outline d moduleName).commands := by
  rw [outline, hd]
  exact List.mem_map_of_mem he

theorem messageRow_mem {d : Dialect} {moduleName : String} {m : Message} (hm : m ∈ d.messages) :
    (messagePart d m).row ∈ (outline d moduleName).lines := by
  have hp : (messagePart d m).row ∈ (outline d moduleName).messages.map MessagePart.row :=
    List.mem_map_of_mem (messagePart_mem moduleName hm)
  simp only [Outline.lines, List.mem_append, hp, true_or, or_true]

theorem commandRow_mem {d : Dialect} {moduleName : String} {enum : Enum} {e : Entry}
    (hd : d.commands? = some enum) (he : e ∈ enum.entries) :
    (commandPart e).row ∈ (outline d moduleName).lines := by
  have hp : (commandPart e).row ∈ (outline d moduleName).commands.map CommandPart.row :=
    List.mem_map_of_mem (commandPart_mem moduleName hd he)
  have hc : (outline d moduleName).hasCommands = true := by
    rw [outline, hd]
    rfl
  have hr : (commandPart e).row ∈ (outline d moduleName).commandRegistry := by
    rw [Outline.commandRegistry, if_pos hc]
    exact List.mem_append_left _ (List.mem_append_right _ hp)
  exact List.mem_append_right _ hr

theorem outline_quoted (d : Dialect) (moduleName : String) :
    Quoted d (outline d moduleName).lines where
  names m hm := by
    refine ⟨messageLines_mem (messagePart_mem moduleName hm) ?_, nameParts_isRead m⟩
    rw [nameParts_spelled]
    simp [MessagePart.lines, MessagePart.constants, messagePart, Message.summary]
  keys m hm := by
    refine ⟨?_, keyParts_isRead m⟩
    rw [keyParts_spelled d]
    exact messageRow_mem hm
  rows m hm row hr := by
    refine ⟨messageLines_mem (messagePart_mem moduleName hm) ?_, rowParts_isRead row.1 row.2⟩
    have hrow : spelled (rowParts row.1 row.2) ∈ (messagePart d m).rows := by
      rw [rowParts_spelled]
      exact List.mem_map_of_mem hr
    simp only [MessagePart.lines, List.mem_append, hrow, true_or, or_true]
  members e he entry hm := by
    refine ⟨enumLines_mem (enumPart_mem moduleName he) ?_, memberParts_isRead e.name entry⟩
    have hline : spelled (memberParts e.name entry) ∈ (memberPart entry).lines e.name := by
      rw [memberParts_spelled]
      exact List.mem_append_right _ List.mem_cons_self
    have hpart : memberPart entry ∈ (enumPart e).members := List.mem_map_of_mem hm
    exact List.mem_append_left _ (List.mem_append_right _ (List.mem_flatMap.2 ⟨_, hpart, hline⟩))
  commands enum hd e he := by
    refine ⟨⟨commandLines_mem (commandPart_mem moduleName hd he) ?_, commandParts_isRead e⟩,
      ⟨?_, commandKeyParts_isRead e⟩⟩
    · rw [commandParts_spelled]
      simp [CommandPart.lines, commandPart]
    · rw [commandKeyParts_spelled]
      exact commandRow_mem hd he

/-- Whatever source the engine accepts, a text between quotes in its module is read back as it is
just when it is plain, and every line of the module is one line just when the dialect is
unbroken. -/
theorem generate_quoted {source moduleName : String} {g : Generated}
    (h : Engine.bindings.generate source moduleName = .ok g) :
    ∃ d, Dialect.parse source = .ok d ∧ g.lines = (outline d moduleName).lines ∧
      Quoted d g.lines ∧ ((∀ line ∈ g.lines, Whole line) ↔ Unbroken d moduleName) := by
  obtain ⟨d, hd, hlines⟩ := generate_outline h
  refine ⟨d, hd, hlines, hlines ▸ outline_quoted d moduleName, ?_⟩
  rw [hlines, ← lines_outline]
  exact lines_whole d moduleName

theorem generate_quoted_plain :
    let source := "<mavlink><enums><enum name='MAV_CMD'><entry name='3D'/></enum></enums>" ++
      "<messages><message id='1' name='M'><field type='char' name='x' units='m'/></message>" ++
      "</messages></mavlink>"
    let f : Field := ⟨"x", ⟨.char, none⟩, none, some "m", "", false⟩
    let d : Dialect := ⟨[], none, none,
      [⟨"MAV_CMD", "", false, [⟨"3D", 0, "", [], false, none⟩], none⟩],
      [⟨1, "M", "", [f], false, none⟩]⟩
    Dialect.parse source = .ok d ∧ ∃ g, Engine.bindings.generate source "m" = .ok g ∧
      (∀ line ∈ g.lines, Whole line) ∧
      spelled (rowParts 0 f) ∈ g.lines ∧ IsRead (rowParts 0 f) ∧
      ∀ e ∈ d.enums, ∀ entry ∈ e.entries,
        spelled (memberParts e.name entry) ∈ g.lines ∧ IsRead (memberParts e.name entry) := by
  intro source f d
  have hd : Dialect.parse source = .ok d := by decide +kernel
  obtain ⟨g, hg⟩ := Engine.bindings_of_parse hd "m"
  obtain ⟨d', hd', -, hquoted, hwhole⟩ := generate_quoted hg
  cases hd.symm.trans hd'
  have hunbroken : Unbroken d "m" := by decide +kernel
  obtain ⟨hline, hrow⟩ := hquoted.rows _ List.mem_cons_self (0, f) (by decide +kernel)
  refine ⟨hd, g, hg, hwhole.2 hunbroken, hline, hrow.2 (by decide), fun e he entry hm => ?_⟩
  obtain ⟨hline, hmember⟩ := hquoted.members e he entry hm
  obtain rfl := List.mem_singleton.1 he
  obtain rfl := List.mem_singleton.1 hm
  refine ⟨hline, hmember.2 ?_⟩
  decide

/-- A source that the engine accepts, with a unit that ends its literal and one that breaks its
line. -/
theorem generate_breaks_out :
    let source := "<mavlink><messages>" ++
      "<message id='1' name='M'><field type='char' name='x' units=\"'\"/></message>" ++
      "<message id='2' name='N'><field type='char' name='y' units='a&#10;b'/></message>" ++
      "</messages></mavlink>"
    let x : Field := ⟨"x", ⟨.char, none⟩, none, some "'", "", false⟩
    let y : Field := ⟨"y", ⟨.char, none⟩, none, some "a\nb", "", false⟩
    ∃ g, Engine.bindings.generate source "m" = .ok g ∧
      (∀ f ∈ [x, y], spelled (rowParts 0 f) ∈ g.lines ∧ ¬ IsRead (rowParts 0 f)) ∧
      ¬ ∀ line ∈ g.lines, Whole line := by
  intro source x y
  let d : Dialect :=
    ⟨[], none, none, [], [⟨1, "M", "", [x], false, none⟩, ⟨2, "N", "", [y], false, none⟩]⟩
  have hd : Dialect.parse source = .ok d := by decide +kernel
  obtain ⟨g, hg, hlines⟩ := outline_of_parse hd "m"
  have hquoted : Quoted d g.lines := hlines ▸ outline_quoted d "m"
  have hx := (hquoted.rows _ List.mem_cons_self (0, x) (by decide +kernel)).1
  have hy := (hquoted.rows _ (List.mem_cons_of_mem _ List.mem_cons_self) (0, y)
    (by decide +kernel)).1
  refine ⟨g, hg, ?_, fun hwhole => absurd (hwhole _ hy) (by decide)⟩
  exact List.forall_mem_cons.2 ⟨⟨hx, by decide⟩, List.forall_mem_singleton.2 ⟨hy, by decide⟩⟩

end Bindings
end DialectBindings
