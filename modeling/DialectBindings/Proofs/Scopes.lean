import DialectBindings.Proofs.Properties
import DialectBindings.Proofs.Words

/-!
# Names of one scope

Nothing keeps two names of a definition apart that become one name of the module. Each scope of
the module has names of its own just when the names it is made from stay different: types, classes
and properties by their words, members by what is left without the name of the enum, and the keys
of the registry as they are.
-/

set_option autoImplicit false

namespace DialectBindings.Bindings
open Identifier Listing Results

/-- The names that a module exports as types and classes. -/
def Outline.exports (o : Outline) : List String :=
  o.enums.map (pascal ·.name) ++ o.commands.map (·.title) ++
    o.messages.map (pascal ·.summary.name)

def EnumPart.memberNames (p : EnumPart) : List String := p.members.map (member p.name ·.name)

def Outline.keys (o : Outline) : List String := o.messages.map (·.summary.name)

def commandName (entry : String) : List Char :=
  let short := (shortName commandEnum.toList entry.toList).filter (· != '\'')
  (if startsWithDigit (pascalChars short) then "MAV_CMD_".toList else []) ++
    (short ++ "_COMMAND".toList)

/-- The names that the exports of a module are made from. -/
def exportedNames (d : Dialect) : List (List Char) :=
  d.enums.map (·.name.toList) ++
    (d.commands?.elim [] fun enum => enum.entries.map (commandName ·.name)) ++
    d.messages.map (·.name.toList)

theorem memberChars_unquoted (enum entry : List Char) :
    (memberChars enum entry).filter (· != '\'') = (shortName enum entry).filter (· != '\'') := by
  rw [memberChars]
  split <;> simp

theorem commandClass_eq (entry : String) :
    commandClass entry = String.ofList (pascalChars (commandName entry)) := by
  have hc : pascalChars "COMMAND".toList = "Command".toList := by decide
  have hm : pascalChars "MAV_CMD".toList = (pascal commandEnum).toList := by decide
  have hback (short : List Char) :
      pascalChars (short ++ "_COMMAND".toList) = pascalChars short ++ "Command".toList := by
    rw [← hc, ← pascalChars_append]
    rfl
  have hfront (name : List Char) :
      pascalChars ("MAV_CMD_".toList ++ name) =
        (pascal commandEnum).toList ++ pascalChars name := by
    rw [← hm, ← pascalChars_append]
    rfl
  rw [commandClass, memberChars_unquoted, commandName]
  split
  · rw [hfront, hback]
    simp [String.append_assoc]
  · rw [List.nil_append, hback]
    simp

theorem outline_exports (d : Dialect) (moduleName : String) :
    (outline d moduleName).exports =
      (exportedNames d).map fun name => String.ofList (pascalChars name) := by
  rw [Outline.exports, exportedNames, outline]
  cases d.commands? with
  | none => simp [enumPart, messagePart, Message.summary, pascal, Function.comp_def]
  | some enum =>
    simp [enumPart, messagePart, Message.summary, pascal, Function.comp_def, commandPart,
      commandClass_eq]

theorem nodup_map_iff {α β γ : Type} {f : α → β} {g : α → γ} {l : List α}
    (h : ∀ a ∈ l, ∀ b ∈ l, f a = f b ↔ g a = g b) : (l.map f).Nodup ↔ (l.map g).Nodup := by
  simp only [List.Nodup, List.pairwise_map]
  constructor
  · exact fun hp => hp.imp_of_mem fun ha hb hn he => hn ((h _ ha _ hb).2 he)
  · exact fun hp => hp.imp_of_mem fun ha hb hn he => hn ((h _ ha _ hb).1 he)

theorem exports_nodup {d : Dialect} (moduleName : String)
    (h : ∀ name ∈ exportedNames d, IsAscii name) :
    (outline d moduleName).exports.Nodup ↔ ((exportedNames d).map words).Nodup := by
  rw [outline_exports]
  refine nodup_map_iff fun a ha b hb => ?_
  rw [String.ofList_inj, pascalChars_eq (h a ha) (h b hb)]

theorem memberChars_eq {enum a b : List Char} (ha : '\'' ∉ a) (hb : '\'' ∉ b) :
    memberChars enum a = memberChars enum b ↔ shortName enum a = shortName enum b := by
  have hshort {entry : List Char} (h : '\'' ∉ entry) : '\'' ∉ shortName enum entry := by
    simp only [shortName]
    split
    · exact fun hm => h (List.mem_of_mem_drop hm)
    · exact h
  refine ⟨fun h => ?_, fun h => by rw [memberChars, memberChars, h]⟩
  have hf (entry : List Char) (h : '\'' ∉ entry) :
      (memberChars enum entry).filter (· != '\'') = shortName enum entry := by
    rw [memberChars_unquoted]
    exact List.filter_eq_self.2 fun c hc => by
      simpa using fun he : c = '\'' => hshort h (he ▸ hc)
  rw [← hf a ha, h, hf b hb]

theorem members_nodup {e : Enum} (h : ∀ entry ∈ e.entries, '\'' ∉ entry.name.toList) :
    (enumPart e).memberNames.Nodup ↔
      (e.entries.map fun entry => shortName e.name.toList entry.name.toList).Nodup := by
  have hn : (enumPart e).memberNames = e.entries.map fun entry => member e.name entry.name := by
    simp [EnumPart.memberNames, enumPart, memberPart, Function.comp_def]
  rw [hn]
  refine nodup_map_iff fun a ha b hb => ?_
  rw [member, member, String.ofList_inj, memberChars_eq (h a ha) (h b hb)]

theorem properties_nodup {d : Dialect} {m : Message} (h : ∀ f ∈ m.fields, IsAscii f.name.toList) :
    ((properties d m).map (·.name)).Nodup ↔ (m.fields.map fun f => words f.name.toList).Nodup := by
  rw [properties, List.map_map]
  refine nodup_map_iff fun a ha b hb => ?_
  change camel a.name = camel b.name ↔ _
  rw [camel, camel, String.ofList_inj, camelChars_eq (h a ha) (h b hb)]

theorem outline_keys (d : Dialect) (moduleName : String) :
    (outline d moduleName).keys = d.messages.map (·.name) := by
  simp [Outline.keys, outline, messagePart, Message.summary, Function.comp_def]

/-- When the names in each scope of a module are different. -/
structure Scoped (d : Dialect) (o : Outline) : Prop where
  /-- Enum types and classes: when no two of the names they are made from have the same words. -/
  exports : (∀ name ∈ exportedNames d, IsAscii name) →
    (o.exports.Nodup ↔ ((exportedNames d).map words).Nodup)
  /-- The members of an enum: when entries differ also without the name of the enum. -/
  members : o.enums = d.enums.map enumPart ∧ ∀ e ∈ d.enums,
    (∀ entry ∈ e.entries, '\'' ∉ entry.name.toList) →
      ((enumPart e).memberNames.Nodup ↔
        (e.entries.map fun entry => shortName e.name.toList entry.name.toList).Nodup)
  /-- The properties of a message: when no two fields have the same words. -/
  properties : o.messages.map (·.body) = d.messages.map (fun m => classBody (properties d m)) ∧
    ∀ m ∈ d.messages, (∀ f ∈ m.fields, IsAscii f.name.toList) →
      (((properties d m).map (·.name)).Nodup ↔
        (m.fields.map fun f => words f.name.toList).Nodup)
  /-- The keys of the registry: when no two messages have one name. -/
  keys : o.keys.Nodup ↔ (d.messages.map (·.name)).Nodup

theorem outline_scoped (d : Dialect) (moduleName : String) : Scoped d (outline d moduleName) where
  exports := exports_nodup moduleName
  members := ⟨rfl, fun _ _ => members_nodup⟩
  properties := ⟨outline_bodies d moduleName, fun _ _ => properties_nodup⟩
  keys := by rw [outline_keys]

/-- Whatever source the engine accepts, the names in a scope of its module are different just when
the names that they are made from stay different. -/
theorem generate_scoped {source moduleName : String} {g : Generated}
    (h : Engine.bindings.generate source moduleName = .ok g) :
    ∃ d, Dialect.parse source = .ok d ∧ g.lines = (outline d moduleName).lines ∧
      Scoped d (outline d moduleName) := by
  obtain ⟨d, hd, -, hlines⟩ := Engine.bindings_ok h
  exact ⟨d, hd, hlines.trans (lines_outline d moduleName), outline_scoped d moduleName⟩

theorem generate_scoped_digit :
    let source := "<mavlink><enums><enum name='E'><entry name='E_3D'/><entry name='X'/></enum>" ++
      "</enums><messages><message id='1' name='M'><field type='char' name='a'/></message>" ++
      "</messages></mavlink>"
    let d : Dialect := ⟨[], none, none,
      [⟨"E", "", false, [⟨"E_3D", 0, "", [], false, none⟩, ⟨"X", 1, "", [], false, none⟩], none⟩],
      [⟨1, "M", "", [⟨"a", ⟨.char, none⟩, none, none, "", false⟩], false, none⟩]⟩
    Dialect.parse source = .ok d ∧ ∃ g, Engine.bindings.generate source "m" = .ok g ∧
      g.lines = (outline d "m").lines ∧ (outline d "m").exports.Nodup ∧
      (∀ e ∈ d.enums, (enumPart e).memberNames.Nodup) ∧
      (∀ m ∈ d.messages, ((properties d m).map (·.name)).Nodup) ∧ (outline d "m").keys.Nodup := by
  intro source d
  have hd : Dialect.parse source = .ok d := by decide +kernel
  obtain ⟨g, hg⟩ := Engine.bindings_of_parse hd "m"
  obtain ⟨d', hd', hlines, hscoped⟩ := generate_scoped hg
  cases hd.symm.trans hd'
  refine ⟨hd, g, hg, hlines, (hscoped.exports (by decide)).2 (by decide), fun e he => ?_,
    fun m hm => ?_, hscoped.keys.2 (by decide)⟩
  · obtain rfl := List.mem_singleton.1 he
    exact (hscoped.members.2 _ he (by decide)).2 (by decide)
  · obtain rfl := List.mem_singleton.1 hm
    exact (hscoped.properties.2 _ hm (by decide)).2 (by decide)

/-- A source that the engine accepts, with a name twice in each kind of scope. -/
theorem generate_repeats_names :
    let source := "<mavlink><enums><enum name='E'><entry name='E_X'/><entry name='X'/></enum>" ++
      "</enums><messages><message id='1' name='E'><field type='char' name='a'/>" ++
      "<field type='char' name='A'/></message><message id='2' name='E'/></messages></mavlink>"
    ∃ g d, Engine.bindings.generate source "m" = .ok g ∧ Dialect.parse source = .ok d ∧
      g.lines = (outline d "m").lines ∧ ¬ (outline d "m").exports.Nodup ∧
      (∃ e ∈ d.enums, ¬ (enumPart e).memberNames.Nodup) ∧
      (∃ m ∈ d.messages, ¬ ((properties d m).map (·.name)).Nodup) ∧
      ¬ (outline d "m").keys.Nodup := by
  intro source
  have hnames : (Dialect.parse source).map (fun d => decide
      (¬ (outline d "m").exports.Nodup ∧
      (∃ e ∈ d.enums, ¬ (enumPart e).memberNames.Nodup) ∧
      (∃ m ∈ d.messages, ¬ ((properties d m).map (·.name)).Nodup) ∧
      ¬ (outline d "m").keys.Nodup)) = .ok true := by
    decide +kernel
  obtain ⟨d, hd, hnames⟩ := map_eq_ok.1 hnames
  obtain ⟨g, hg⟩ := Engine.bindings_of_parse hd "m"
  obtain ⟨d', hd', -, hlines⟩ := Engine.bindings_ok hg
  cases hd.symm.trans hd'
  exact ⟨g, d, hg, hd, hlines.trans (lines_outline d "m"), of_decide_eq_true hnames⟩

end DialectBindings.Bindings
