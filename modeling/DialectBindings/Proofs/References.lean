import DialectBindings.Proofs.Properties

/-!
# What a module refers to

The types of properties, the members that commands stand for and the classes of the registries
are made by other functions than the declarations they refer to. Each of them is declared.
-/

set_option autoImplicit false

namespace DialectBindings.Bindings
open Identifier Listing Results

/-- The types of properties that are not declared in the module, with the values that properties
of the type start with. -/
def builtIns : List (String × String) :=
  [("string", "''"), ("number[]", "[]"), ("bigint[]", "[]"), ("bigint", "BigInt(0)"),
    ("number", "0")]

/-- A type and an initial value that are known, or an enum that a line declares. -/
def PropertyPart.Known (lines : List String) (p : PropertyPart) : Prop :=
  (p.type, p.initial) ∈ builtIns ∨
    p.initial = "0 as " ++ p.type ∧ "export enum " ++ p.type ++ " \x7b" ∈ lines

/-- A member access names the type of the enum of commands and a member as it stands in the line
of that member. -/
def Outline.HasMember (o : Outline) (access : String) : Prop :=
  ∃ e ∈ o.enums, e.name = commandEnum ∧ ∃ m ∈ e.members,
    access = pascal e.name ++ "." ++ member e.name m.name ∨
      access = pascal e.name ++ "[" ++ member e.name m.name ++ "]"

/-- An outline of a dialect without a reference to something that it does not declare. -/
structure Resolved (d : Dialect) (o : Outline) : Prop where
  properties : o.messages.map (·.body) = d.messages.map (fun m => classBody (properties d m)) ∧
    ∀ m ∈ d.messages, ∀ p ∈ properties d m, p.Known o.lines
  commands : ∀ c ∈ o.commands, o.HasMember (reference c.member)
  messageRows : ∀ row ∈ o.messages.map MessagePart.row, ∃ key title,
    row = "  '" ++ key ++ "': " ++ title ++ "," ∧
      "export class " ++ title ++ " extends MavLinkData \x7b" ∈ o.lines
  commandRows : ∀ row ∈ o.commands.map CommandPart.row, ∃ access title,
    row = "  [" ++ access ++ "]: " ++ title ++ "," ∧ o.HasMember access ∧
      "export class " ++ title ++ " extends CommandLong \x7b" ∈ o.lines

theorem reference_eq (member : String) :
    reference member = "MavCmd." ++ member ∨ reference member = "MavCmd[" ++ member ++ "]" := by
  rw [reference]
  split
  · exact .inr rfl
  · exact .inl rfl

theorem declarations_mem {o : Outline} {line : String}
    (h : line ∈ o.enums.flatMap EnumPart.lines ++ o.commands.flatMap CommandPart.lines ++
      o.messages.flatMap MessagePart.lines) : line ∈ o.lines := by
  simp only [Outline.lines, List.append_assoc, List.mem_append] at h ⊢
  rcases h with h | h | h <;> simp only [h, true_or, or_true]

theorem enumLines_mem {o : Outline} {e : EnumPart} {line : String} (he : e ∈ o.enums)
    (h : line ∈ e.lines) : line ∈ o.lines :=
  declarations_mem
    (List.mem_append_left _ (List.mem_append_left _ (List.mem_flatMap.2 ⟨e, he, h⟩)))

theorem commandLines_mem {o : Outline} {c : CommandPart} {line : String} (hc : c ∈ o.commands)
    (h : line ∈ c.lines) : line ∈ o.lines :=
  declarations_mem
    (List.mem_append_left _ (List.mem_append_right _ (List.mem_flatMap.2 ⟨c, hc, h⟩)))

theorem messageLines_mem {o : Outline} {m : MessagePart} {line : String} (hm : m ∈ o.messages)
    (h : line ∈ m.lines) : line ∈ o.lines :=
  declarations_mem (List.mem_append_right _ (List.mem_flatMap.2 ⟨m, hm, h⟩))

theorem enumLine_mem {o : Outline} {e : EnumPart} (h : e ∈ o.enums) :
    "export enum " ++ pascal e.name ++ " \x7b" ∈ o.lines :=
  enumLines_mem h (by simp [EnumPart.lines])

theorem commandLine_mem {o : Outline} {c : CommandPart} (h : c ∈ o.commands) :
    "export class " ++ c.title ++ " extends CommandLong \x7b" ∈ o.lines :=
  commandLines_mem h (by simp [CommandPart.lines])

theorem messageLine_mem {o : Outline} {m : MessagePart} (h : m ∈ o.messages) :
    "export class " ++ pascal m.summary.name ++ " extends MavLinkData \x7b" ∈ o.lines :=
  messageLines_mem h (by simp [MessagePart.lines])

theorem propertyType_known (d : Dialect) (f : Field) :
    propertyType d f ∈ builtIns ∨
      ∃ e ∈ d.enums, propertyType d f = (pascal e.name, "0 as " ++ pascal e.name) := by
  rw [propertyType]
  split
  · exact .inl (by simp [builtIns])
  split
  · left
    rw [Scalar.scriptType]
    split <;> simp [builtIns]
  split
  · rename_i name hn
    obtain ⟨-, hd⟩ := Option.filter_eq_some_iff.1 hn
    obtain ⟨e, he, hname⟩ := List.any_eq_true.1 hd
    obtain rfl : e.name = name := by simpa using hname
    exact .inr ⟨e, he, rfl⟩
  · left
    split <;> simp [builtIns]

theorem property_known {d : Dialect} {moduleName : String} (f : Field) :
    (propertyPart d f).Known (outline d moduleName).lines := by
  obtain h | ⟨e, he, h⟩ := propertyType_known d f
  · exact .inl h
  · have hm : enumPart e ∈ (outline d moduleName).enums := List.mem_map_of_mem he
    have hline := enumLine_mem hm
    refine .inr ?_
    simp only [propertyPart, h]
    exact ⟨trivial, hline⟩

theorem commands_mem {d : Dialect} {moduleName : String} {c : CommandPart}
    (h : c ∈ (outline d moduleName).commands) :
    ∃ enum ∈ d.enums, enum.name = commandEnum ∧ ∃ e ∈ enum.entries, c = commandPart e := by
  rw [outline] at h
  cases hd : d.commands? with
  | none => simp [hd] at h
  | some enum =>
    rw [hd] at h
    obtain ⟨e, he, rfl⟩ := List.mem_map.1 h
    exact ⟨enum, List.mem_of_find?_eq_some hd, commands?_name hd, e, he, rfl⟩

theorem command_hasMember {d : Dialect} {moduleName : String} {c : CommandPart}
    (h : c ∈ (outline d moduleName).commands) :
    (outline d moduleName).HasMember (reference c.member) := by
  obtain ⟨enum, hm, hn, e, he, rfl⟩ := commands_mem h
  have ht : pascal commandEnum = "MavCmd" := by decide
  refine ⟨enumPart enum, List.mem_map_of_mem hm, hn, memberPart e, List.mem_map_of_mem he, ?_⟩
  change reference (member commandEnum e.name) =
      pascal enum.name ++ "." ++ member enum.name e.name ∨
    reference (member commandEnum e.name) =
      pascal enum.name ++ "[" ++ member enum.name e.name ++ "]"
  rw [hn, ht]
  exact reference_eq _

theorem outline_resolved (d : Dialect) (moduleName : String) :
    Resolved d (outline d moduleName) where
  properties := by
    refine ⟨outline_bodies d moduleName, fun m _ p hp => ?_⟩
    obtain ⟨f, -, rfl⟩ := List.mem_map.1 hp
    exact property_known f
  commands c hc := command_hasMember hc
  messageRows row hr := by
    obtain ⟨m, hm, rfl⟩ := List.mem_map.1 hr
    exact ⟨m.summary.name, pascal m.summary.name, rfl, messageLine_mem hm⟩
  commandRows row hr := by
    obtain ⟨c, hc, rfl⟩ := List.mem_map.1 hr
    exact ⟨reference c.member, c.title, rfl, command_hasMember hc, commandLine_mem hc⟩

/-- Whatever source the engine accepts, its module refers to nothing of its own that it does not
declare. -/
theorem generate_resolves {source moduleName : String} {g : Generated}
    (h : Engine.bindings.generate source moduleName = .ok g) :
    ∃ d, Dialect.parse source = .ok d ∧ g.lines = (outline d moduleName).lines ∧
      Resolved d (outline d moduleName) := by
  obtain ⟨d, hd, -, hlines⟩ := Engine.bindings_ok h
  exact ⟨d, hd, hlines.trans (lines_outline d moduleName), outline_resolved d moduleName⟩

theorem generate_resolves_digit :
    let source := "<mavlink><enums><enum name='MAV_CMD'><entry name='MAV_CMD_3D' value='7'/>" ++
      "</enum></enums><messages><message id='1' name='A'><field type='uint8_t' name='x' " ++
      "enum='MAV_CMD'/></message></messages></mavlink>"
    ∃ g d, Engine.bindings.generate source "a" = .ok g ∧ Dialect.parse source = .ok d ∧
      g.lines = (outline d "a").lines ∧ Resolved d (outline d "a") := by
  intro source
  have h : (Engine.bindings.generate source "a").isOk = true := by decide +kernel
  obtain ⟨g, hg⟩ := exists_ok h
  obtain ⟨d, hd⟩ := generate_resolves hg
  exact ⟨g, d, hg, hd⟩

end DialectBindings.Bindings
