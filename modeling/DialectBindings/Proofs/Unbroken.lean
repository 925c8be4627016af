import DialectBindings.Proofs.Payload
import DialectBindings.Proofs.References
import DialectBindings.Proofs.Scopes
import DialectBindings.Proofs.WholeLines

/-!
# Texts that break lines

The texts of a dialect are printed as they are, the texts of comments apart: these are cut into
lines first. So each line of a module stays one line just when the names, the units and the includes
of its dialect have no line ends, and the texts of its comments none but line feeds and blank ends.
-/

set_option autoImplicit false

namespace DialectBindings.Bindings
open Identifier Listing Script Text

def TidyNotes (description : String) (deprecated : Option Deprecation) : Prop :=
  Tidy description ∧ ∀ d ∈ deprecated, Tidy (deprecationTag d)

instance (description : String) (deprecated : Option Deprecation) :
    Decidable (TidyNotes description deprecated) := inferInstanceAs (Decidable (_ ∧ _))

/-- A dialect whose texts have no line ends where they are printed. -/
structure Unbroken (d : Dialect) (moduleName : String) : Prop where
  header : Whole moduleName ∧ ∀ i ∈ d.includes, Whole i
  enums : ∀ e ∈ d.enums, (Whole e.name ∧ TidyNotes e.description e.deprecated) ∧
    ∀ entry ∈ e.entries, Whole entry.name ∧ TidyNotes entry.description entry.deprecated
  accessors : ∀ enum ∈ d.commands?, ∀ entry ∈ enum.entries, ∀ a ∈ accessors entry,
    Tidy a.param.description ∧ ∀ u ∈ a.param.units, Tidy ("@units " ++ u)
  messages : ∀ m ∈ d.messages, (Whole m.name ∧ TidyNotes m.description m.deprecated) ∧
    ∀ f ∈ m.fields, (Whole f.name ∧ Whole (f.units.getD "")) ∧ Tidy f.description

instance (d : Dialect) (moduleName : String) : Decidable (Unbroken d moduleName) :=
  decidable_of_iff (_ ∧ _ ∧ _ ∧ _)
    ⟨fun ⟨header, enums, accessors, messages⟩ => ⟨header, enums, accessors, messages⟩,
      fun h => ⟨h.header, h.enums, h.accessors, h.messages⟩⟩

theorem tidyNotes_iff (description : String) (wip : Bool) (deprecated : Option Deprecation) :
    (∀ p ∈ description :: wipTag wip ++ (deprecated.map deprecationTag).toList, Tidy p) ↔
      TidyNotes description deprecated := by
  have hw : ∀ p ∈ wipTag wip, Tidy p := by
    cases wip <;> decide
  rw [List.cons_append, List.forall_mem_cons, List.forall_mem_append, and_iff_right hw, TidyNotes]
  simp

theorem whole_end : ∀ dir ∈ [Directive.line "\x7d", .blank], dir.Whole := by
  have hend : Whole "\x7d" := by decide
  simp [Directive.Whole, hend]

theorem header_whole (d : Dialect) (moduleName : String) :
    (∀ dir ∈ header d moduleName, dir.Whole) ↔
      Whole moduleName ∧ ∀ i ∈ d.includes, Whole i := by
  have hincludes : (∀ dir ∈ (if d.includes.isEmpty then [] else
      [Directive.line ("// includes: " ++ ", ".intercalate d.includes)]), dir.Whole) ↔
        ∀ i ∈ d.includes, Whole i := by
    split
    · rename_i he
      simp [List.isEmpty_iff.1 he]
    · have hc : Whole "// includes: " := by decide
      simp [Directive.Whole, hc]
  have hfront : Whole "// Generated from " := by decide
  have hback : Whole ".xml, do not edit" := by decide
  have hversion : Whole "// version: " := by decide
  have hnumber : Whole "// dialect: " := by decide
  simp only [header, List.forall_mem_append, hincludes]
  simp [Directive.Whole, hfront, hback, hversion, hnumber]

theorem isWhole_shortName {enum entry : List Char} (h : IsWhole enum) :
    IsWhole (shortName enum entry) ↔ IsWhole entry := by
  simp only [shortName]
  split
  · rename_i hp
    rw [Bool.and_eq_true, List.isPrefixOf_iff_prefix] at hp
    obtain ⟨⟨rest, rfl⟩, -⟩ := hp
    rw [List.drop_left, isWhole_append]
    exact (and_iff_right (isWhole_append.2 ⟨h, by decide⟩)).symm
  · rfl

theorem isWhole_memberChars {enum entry : List Char} (h : IsWhole enum) :
    IsWhole (memberChars enum entry) ↔ IsWhole entry := by
  refine Iff.trans ?_ (isWhole_shortName h)
  rw [memberChars]
  split
  · simp [endsLine]
  · rfl

theorem whole_member {enum entry : String} (h : Whole enum) :
    Whole (member enum entry) ↔ Whole entry := by
  rw [member, whole_ofList]
  exact isWhole_memberChars h

theorem whole_memberAccess {type enum entry : String} (ht : Whole type) (he : Whole enum) :
    Whole (memberAccess type enum entry) ↔ Whole entry := by
  have hopen : Whole "[" := by decide
  have hclose : Whole "]" := by decide
  have hdot : Whole "." := by decide
  refine Iff.trans ?_ (isWhole_memberChars he)
  rw [memberAccess]
  split
  · rename_i rest hr
    rw [hr, whole_append, whole_append, whole_append, ← whole_ofList (s := '\'' :: rest)]
    simp only [ht, hopen, hclose, true_and, and_true]
  · rw [whole_append, whole_append, ← whole_ofList]
    simp only [ht, hdot, true_and]

theorem whole_commandClass {entry : String} : Whole (commandClass entry) ↔ Whole entry := by
  have hfront : IsWhole "MAV_CMD_".toList := by decide
  have hback : IsWhole "_COMMAND".toList := by decide
  have hquotes (s : List Char) : IsWhole (s.filter (· != '\'')) ↔ IsWhole s := by
    refine isWhole_congr fun x hx => ?_
    rw [List.mem_filter, and_iff_left_iff_imp]
    rintro -
    exact bne_iff_ne.2 fun he => by simp [he, endsLine] at hx
  have hname : IsWhole (commandName entry) ↔ IsWhole entry.toList := by
    have hshort : IsWhole (shortName commandEnum.toList entry.toList) ↔ IsWhole entry.toList :=
      isWhole_shortName (by decide)
    simp only [commandName]
    split <;> simp only [isWhole_append, hquotes, hshort, hfront, hback, isWhole_nil, true_and,
      and_true]
  rw [commandClass_eq, whole_ofList]
  exact (isWhole_congr fun x hx => mem_pascalChars (isMark_of_endsLine hx)).trans hname

theorem enumDeclaration_whole (e : Enum) :
    (∀ dir ∈ enumDeclaration e, dir.Whole) ↔
      (Whole e.name ∧ TidyNotes e.description e.deprecated) ∧
        ∀ entry ∈ e.entries, Whole entry.name ∧ TidyNotes entry.description entry.deprecated := by
  have hfront : Whole "export enum " := by decide
  have hbrace : Whole " \x7b" := by decide
  have hequals : Whole " = " := by decide
  have hcomma : Whole "," := by decide
  have hmember (h : Whole e.name) (entry : Entry) :
      (∀ dir ∈ enumMember e.name entry, dir.Whole) ↔
        Whole entry.name ∧ TidyNotes entry.description entry.deprecated := by
    rw [enumMember, List.forall_mem_cons, List.forall_mem_singleton, and_comm]
    refine and_congr ?_ (tidyNotes_iff _ _ _)
    simp [Directive.Whole, memberLine, whole_member h, hequals, hcomma]
  have hdoc : (Directive.doc (e.description :: (e.deprecated.map deprecationTag).toList)).Whole ↔
      TidyNotes e.description e.deprecated := tidyNotes_iff _ false _
  have hline : (Directive.line ("export enum " ++ pascal e.name ++ " \x7b")).Whole ↔
      Whole e.name := by simp [Directive.Whole, hfront, hbrace]
  rw [enumDeclaration, List.forall_mem_append, List.forall_mem_append, List.forall_mem_cons,
    List.forall_mem_singleton, hdoc, hline, whole_indented, whole_flatMap, and_iff_left whole_end,
    and_comm (a := TidyNotes _ _)]
  exact and_congr_right fun h => forall₂_congr fun entry _ => hmember h.1 entry

theorem mem_firstOfName {seen : List String} {as : List Accessor} {a : Accessor}
    (h : a ∈ firstOfName seen as) : a ∈ as := by
  induction as generalizing seen with
  | nil => exact h
  | cons b as ih =>
    rw [firstOfName] at h
    split at h
    · exact List.mem_cons_of_mem _ (ih h)
    · rcases List.mem_cons.1 h with rfl | h
      · exact List.mem_cons_self
      · exact List.mem_cons_of_mem _ (ih h)

theorem accessors_name {e : Entry} {a : Accessor} (h : a ∈ accessors e) :
    ∃ label, a.param.label = some label ∧ a.name = accessorName label ∧ a.name ≠ "" := by
  obtain ⟨p, -, hp⟩ := List.mem_filterMap.1 (mem_firstOfName h)
  rw [accessor?] at hp
  split at hp
  · cases hp
  · rename_i label hl
    dsimp only at hp
    split at hp <;> cases hp
    exact ⟨label, hl, rfl, ‹_›⟩

theorem whole_accessorName (label : String) : Whole (accessorName label) := by
  have hword : IsWhole (label.toList.map fun c => if c.isAlphanum then c else '_') := by
    intro c hc
    obtain ⟨d, -, rfl⟩ := List.mem_map.1 hc
    refine Bool.eq_false_iff.2 fun he => ?_
    simp only [endsLine, Bool.or_eq_true, beq_iff_eq] at he
    split at he
    · rename_i ha
      rcases he with ((rfl | rfl) | rfl) | rfl <;> cases ha
    · revert he
      decide
  have hcamel : IsWhole (camelChars (label.toList.map fun c => if c.isAlphanum then c else '_')) :=
    (isWhole_congr fun x hx => mem_camelChars (isMark_of_endsLine hx)).2 hword
  have hparam : IsWhole "param".toList := by decide
  rw [accessorName, whole_ofList]
  split
  · exact isWhole_append.2 ⟨hparam, hcamel⟩
  · exact hcamel

theorem commandConstructor_whole {enum : Enum} {e : Entry} (hn : enum.name = commandEnum)
    (he : Whole e.name) : ∀ dir ∈ commandConstructor enum e, dir.Whole := by
  have hconst : ∀ s ∈ ["constructor(targetSystem = 1, targetComponent = 1) \x7b", "super()",
      "this.targetSystem = targetSystem", "this.targetComponent = targetComponent", "\x7d",
      "this.command = ", " as number"], Whole s := by decide
  have haccess : Whole (commandAccess enum e) := by
    rw [commandAccess, hn]
    exact (whole_memberAccess (by decide) (by decide)).2 he
  simp only [List.forall_mem_cons] at hconst
  simp [commandConstructor, indented, Directive.Whole, haccess, hconst]

theorem accessorLines_whole {e : Entry} {a : Accessor} (ha : a ∈ accessors e) :
    (∀ dir ∈ accessorLines a, dir.Whole) ↔
      Tidy a.param.description ∧ ∀ u ∈ a.param.units, Tidy ("@units " ++ u) := by
  have hconst : ∀ s ∈ ["get ", "() \x7b", "return ", "this._param", "\x7d", "set ",
      "(value: number) \x7b", " = value"], Whole s := by decide
  obtain ⟨label, -, hname, -⟩ := accessors_name ha
  have hname : Whole a.name := by
    rw [hname]
    exact whole_accessorName label
  simp only [List.forall_mem_cons] at hconst
  simp [accessorLines, indented, Directive.Whole, hname, hconst]

theorem commandDeclaration_whole {enum : Enum} {e : Entry} (hn : enum.name = commandEnum)
    (he : Whole e.name) (hnotes : TidyNotes e.description e.deprecated) :
    (∀ dir ∈ commandDeclaration enum e, dir.Whole) ↔ ∀ a ∈ accessors e,
      Tidy a.param.description ∧ ∀ u ∈ a.param.units, Tidy ("@units " ++ u) := by
  have hdoc : (Directive.doc (e.description :: (e.deprecated.map deprecationTag).toList)).Whole :=
    (tidyNotes_iff _ false _).2 hnotes
  have hfront : Whole "export class " := by decide
  have hback : Whole " extends CommandLong \x7b" := by decide
  have hline : (Directive.line ("export class " ++ commandClass e.name ++
      " extends CommandLong \x7b")).Whole := by
    simp [Directive.Whole, whole_commandClass, he, hfront, hback]
  rw [commandDeclaration, List.forall_mem_append, List.forall_mem_append, List.forall_mem_cons,
    List.forall_mem_singleton, whole_indented, List.forall_mem_append, whole_flatMap,
    and_iff_left whole_end, and_iff_right ⟨hdoc, hline⟩,
    and_iff_right (commandConstructor_whole hn he)]
  exact forall₂_congr fun a ha => accessorLines_whole ha

theorem messageConstants_whole (m : Message) :
    (∀ dir ∈ messageConstants m, dir.Whole) ↔ Whole m.name := by
  have hconst : ∀ s ∈ ["static MSG_ID = ", "static MSG_NAME = '", "'",
      "static PAYLOAD_LENGTH = ", "static MAGIC_NUMBER = "], Whole s := by decide
  simp only [List.forall_mem_cons] at hconst
  simp [messageConstants, Directive.Whole, hconst]

theorem whole_displayName (t : FieldType) : Whole t.displayName := by
  have hw : Whole t.scalar.wireName := by cases t.scalar <;> decide
  have hopen : Whole "[" := by decide
  have hclose : Whole "]" := by decide
  rw [FieldType.displayName]
  split
  · simp [hw, hopen, hclose]
  · exact hw

theorem whole_quotedName {s : String} : Whole (quotedName s) ↔ Whole s := by
  have hq : Whole "'" := by decide
  simp [quotedName, hq]

theorem fieldRow_whole (offset : Nat) (f : Field) :
    Whole (fieldRow offset f) ↔ Whole f.name ∧ Whole (f.units.getD "") := by
  have hfront : Whole "new MavLinkPacketField(" := by decide
  have hback : Whole ")," := by decide
  have hcomma : Whole ", " := by decide
  have hsign : Whole (if f.isExtension then "true" else "false") := by
    split <;> decide
  unfold fieldRow
  simp [whole_quotedName, whole_displayName, hsign, hfront, hback, hcomma]

theorem fieldTable_whole (m : Message) :
    (∀ dir ∈ fieldTable m, dir.Whole) ↔
      ∀ f ∈ m.fields, Whole f.name ∧ Whole (f.units.getD "") := by
  have hopen : Whole "static FIELDS = [" := by decide
  have hclose : Whole "]" := by decide
  have hrows : (∀ row ∈ withOffsets 0 m.wireFields, Whole (fieldRow row.1 row.2)) ↔
      ∀ f ∈ m.fields, Whole f.name ∧ Whole (f.units.getD "") := by
    simp only [fieldRow_whole, ← m.wireFields_perm.mem_iff]
    conv => rhs; rw [← withOffsets_fields 0 m.wireFields]
    rw [List.forall_mem_map]
  rw [← hrows, fieldTable_eq, List.cons_append, List.forall_mem_cons, List.forall_mem_append,
    whole_indented, List.forall_mem_map]
  simp [Directive.Whole, hopen, hclose]

theorem propertyType_whole {d : Dialect} (he : ∀ e ∈ d.enums, Whole e.name) (f : Field) :
    Whole (propertyType d f).1 ∧ Whole (propertyType d f).2 := by
  have hzero : Whole "0 as " := by decide
  have hbuiltIn : ∀ p ∈ builtIns, Whole p.1 ∧ Whole p.2 := by decide
  obtain h | ⟨e, hm, h⟩ := propertyType_known d f
  · exact hbuiltIn _ h
  · rw [h]
    simp [he e hm, hzero]

theorem messageConstructor_whole {d : Dialect} {m : Message} (he : ∀ e ∈ d.enums, Whole e.name)
    (hf : ∀ f ∈ m.fields, Whole f.name) : ∀ dir ∈ messageConstructor d m, dir.Whole := by
  have hconst : ∀ s ∈ ["constructor() \x7b", "super()", "\x7d", "this.", " = "], Whole s := by
    decide
  simp only [List.forall_mem_cons] at hconst
  simp only [messageConstructor, List.cons_append, List.forall_mem_cons, List.forall_mem_append,
    whole_indented, List.forall_mem_map]
  simp [Directive.Whole, hconst, fun f => (propertyType_whole he f).2]
  exact hf

theorem property_whole {d : Dialect} {f : Field} (he : ∀ e ∈ d.enums, Whole e.name)
    (hf : Whole f.name) (hu : Whole (f.units.getD "")) :
    (∀ dir ∈ property d f, dir.Whole) ↔ Tidy f.description := by
  have hfront : Whole "Units: " := by decide
  have hcolon : Whole ": " := by decide
  have hunits : ∀ u ∈ f.units, Tidy ("Units: " ++ u) := by
    intro u hm
    rw [Option.mem_def.1 hm] at hu
    exact (whole_append.2 ⟨hfront, hu⟩).tidy
  simp only [property, List.forall_mem_cons, Directive.Whole]
  simpa [hf, hcolon, (propertyType_whole he f).1] using fun _ : Tidy f.description => hunits

theorem messageDeclaration_whole {d : Dialect} (he : ∀ e ∈ d.enums, Whole e.name) (m : Message) :
    (∀ dir ∈ messageDeclaration d m, dir.Whole) ↔
      (Whole m.name ∧ TidyNotes m.description m.deprecated) ∧
        ∀ f ∈ m.fields, (Whole f.name ∧ Whole (f.units.getD "")) ∧ Tidy f.description := by
  have hfront : Whole "export class " := by decide
  have hback : Whole " extends MavLinkData \x7b" := by decide
  have hline : (Directive.line ("export class " ++ pascal m.name ++
      " extends MavLinkData \x7b")).Whole ↔ Whole m.name := by
    simp [Directive.Whole, hfront, hback]
  have hdoc : (Directive.doc (m.description :: wipTag m.wip ++
      (m.deprecated.map deprecationTag).toList)).Whole ↔ TidyNotes m.description m.deprecated :=
    tidyNotes_iff _ _ _
  have hblank : ∀ dir ∈ [Directive.blank], dir.Whole := by simp [Directive.Whole]
  rw [messageDeclaration_eq, List.forall_mem_cons, List.forall_mem_cons, List.forall_mem_append,
    and_iff_left whole_end, whole_indented, hdoc, hline]
  simp only [List.forall_mem_append, and_iff_right hblank, messageConstants_whole,
    fieldTable_whole, whole_flatMap]
  constructor
  · rintro ⟨hnotes, hname, -, hfields, -, hprops⟩
    refine ⟨⟨hname, hnotes⟩, fun f hf => ⟨hfields f hf, ?_⟩⟩
    exact (property_whole he (hfields f hf).1 (hfields f hf).2).1 (hprops f hf)
  · rintro ⟨⟨hname, hnotes⟩, hfields⟩
    refine ⟨hnotes, hname, hname, fun f hf => (hfields f hf).1,
      messageConstructor_whole he fun f hf => (hfields f hf).1.1, fun f hf => ?_⟩
    obtain ⟨⟨hf, hu⟩, ht⟩ := hfields f hf
    exact (property_whole he hf hu).2 ht

theorem messageRow_whole {m : Message} (h : Whole m.name) : Whole (messageRow m) := by
  have hopen : Whole "'" := by decide
  have hclose : Whole "': " := by decide
  have hcomma : Whole "," := by decide
  simp [messageRow, h, hopen, hclose, hcomma]

theorem commandRow_whole {enum : Enum} {e : Entry} (hn : enum.name = commandEnum)
    (h : Whole e.name) : Whole (commandRow enum e) := by
  have hopen : Whole "[" := by decide
  have hclose : Whole "]: " := by decide
  have hcomma : Whole "," := by decide
  have haccess : Whole (commandAccess enum e) := by
    rw [commandAccess, hn]
    exact (whole_memberAccess (by decide) (by decide)).2 h
  simp [commandRow, haccess, whole_commandClass, h, hopen, hclose, hcomma]

theorem registries_whole {d : Dialect} (hm : ∀ m ∈ d.messages, Whole m.name)
    (hc : ∀ enum ∈ d.commands?, ∀ e ∈ enum.entries, Whole e.name) :
    ∀ dir ∈ registries d, dir.Whole := by
  have hopen : Whole "export const REGISTRY: MavLinkPacketRegistry = \x7b" := by decide
  have hcommands : Whole "export const COMMANDS: MavLinkCommandRegistry = \x7b" := by decide
  have hclose : Whole "\x7d" := by decide
  rw [registries_eq, List.forall_mem_cons, List.forall_mem_append, List.forall_mem_append,
    List.forall_mem_singleton, whole_indented, List.forall_mem_map]
  refine ⟨hopen, fun m h => messageRow_whole (hm m h), hclose, ?_⟩
  cases hd : d.commands? with
  | none => simp
  | some enum =>
    rw [Option.elim_some, commandRegistry, List.forall_mem_append, List.forall_mem_append,
      List.forall_mem_cons, List.forall_mem_singleton, List.forall_mem_singleton, whole_indented,
      List.forall_mem_map]
    refine ⟨⟨⟨trivial, hcommands⟩, fun e he => ?_⟩, hclose⟩
    exact commandRow_whole (commands?_name hd) (hc enum hd e he)

/-- The lines of a module are whole just when the texts of its dialect are unbroken. -/
theorem lines_whole (d : Dialect) (moduleName : String) :
    (∀ line ∈ lines d moduleName, Whole line) ↔ Unbroken d moduleName := by
  have hsections : (∀ line ∈ lines d moduleName, Whole line) ↔
      ∀ s ∈ sections d moduleName, ∀ dir ∈ s, dir.Whole := by
    simp only [lines, List.mem_flatMap]
    constructor
    · exact fun h s hs => linesFrom_whole.1 fun line hl => h line ⟨s, hs, hl⟩
    · rintro h line ⟨s, hs, hl⟩
      exact linesFrom_whole.2 (h s hs) line hl
  simp only [hsections, sections, List.forall_mem_append, List.forall_mem_singleton,
    List.forall_mem_map, header_whole, enumDeclaration_whole]
  constructor
  · rintro ⟨⟨⟨⟨hheader, henums⟩, hcommands⟩, hmessages⟩, -⟩
    refine ⟨hheader, henums, fun enum hd e he => ?_, fun m hm => ?_⟩
    · rw [Option.mem_def.1 hd, Option.elim_some, List.forall_mem_map] at hcommands
      obtain ⟨hname, hnotes⟩ := (henums enum (List.mem_of_find?_eq_some hd)).2 e he
      exact (commandDeclaration_whole (commands?_name hd) hname hnotes).1 (hcommands e he)
    · exact (messageDeclaration_whole (fun e he => (henums e he).1.1) m).1 (hmessages m hm)
  · intro h
    have hentries (enum : Enum) (hd : enum ∈ d.commands?) :=
      (h.enums enum (List.mem_of_find?_eq_some hd)).2
    refine ⟨⟨⟨⟨h.header, h.enums⟩, ?_⟩, fun m hm => ?_⟩, ?_⟩
    · cases hd : d.commands? with
      | none => simp
      | some enum =>
        rw [Option.elim_some, List.forall_mem_map]
        intro e he
        obtain ⟨hname, hnotes⟩ := hentries enum hd e he
        exact (commandDeclaration_whole (commands?_name hd) hname hnotes).2
          (h.accessors enum hd e he)
    · exact (messageDeclaration_whole (fun e he => (h.enums e he).1.1) m).2 (h.messages m hm)
    · exact registries_whole (fun m hm => (h.messages m hm).1.1)
        fun enum hd e he => (hentries enum hd e he).1

end DialectBindings.Bindings
