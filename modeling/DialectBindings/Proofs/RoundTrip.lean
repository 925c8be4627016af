import DialectBindings.Proofs.Documents
import DialectBindings.Proofs.Readback

/-!
# Documents written and read back

A document is written as one element, with a child or an attribute for all that it holds. What is
absent, and a description that is empty, is left out. Reading gives the document again.
-/

set_option autoImplicit false

namespace DialectBindings
open Markup Definition

def Deprecation.element (d : Deprecation) : Element :=
  .leaf "deprecated" [("since", d.since), ("replaced_by", d.replacedBy)] d.note

def Deprecation.strings (d : Deprecation) : List String :=
  d.since.toList ++ d.replacedBy.toList ++ [d.note]

end DialectBindings

namespace DialectBindings.Definition
open Markup Text Results

/-! ## How a document is written -/

def described : String → List Element := noted (.leaf "description" [])

def ParamDecl.element (p : ParamDecl) : Element :=
  .leaf "param" [("index", some (toString p.index)), ("label", p.label), ("units", p.units),
    ("reserved", some (toString p.reserved))] p.description

def EntryDecl.element (e : EntryDecl) : Element :=
  .node "entry" [("name", some e.name), ("value", e.value)]
    (described e.description ++ e.params.map ParamDecl.element ++
      e.deprecated.toList.map Deprecation.element ++ if e.wip then [.leaf "wip" [] ""] else [])

def EnumDecl.element (e : EnumDecl) : Element :=
  .node "enum" [("name", some e.name), ("bitmask", some (toString e.bitmask))]
    (described e.description ++ e.deprecated.toList.map Deprecation.element ++
      e.entries.map EntryDecl.element)

def FieldDecl.element (f : FieldDecl) : Element :=
  .leaf "field" [("type", some f.type), ("name", some f.name), ("enum", f.enumName),
    ("units", f.units)] f.description

/-- An item that does not count is an element that no reader knows. -/
def MessageItem.element : MessageItem → Element
  | .description text => .leaf "description" [] text
  | .field f => f.element
  | .extensions => .leaf "extensions" [] ""
  | .wip => .leaf "wip" [] ""
  | .deprecated d => d.element
  | .other => .leaf "other" [] ""

def MessageDecl.element (m : MessageDecl) : Element :=
  .node "message" [("id", some (toString m.id)), ("name", some m.name)]
    (m.items.map MessageItem.element)

def Document.element (d : Document) : Element :=
  .node "mavlink" []
    (d.includes.map (.leaf "include" []) ++
      d.version.toList.map (fun n => .leaf "version" [] (toString n)) ++
      d.number.toList.map (fun n => .leaf "dialect" [] (toString n)) ++
      [.node "enums" [] (d.enums.map EnumDecl.element),
        .node "messages" [] (d.messages.map MessageDecl.element)])

/-- The text of a document. -/
def Document.written (d : Document) : String := String.ofList d.element.chars

/-! ## The texts of a document -/

def ParamDecl.strings (p : ParamDecl) : List String :=
  p.label.toList ++ p.units.toList ++ [p.description]

def EntryDecl.strings (e : EntryDecl) : List String :=
  [e.name, e.description] ++ e.value.toList ++ e.params.flatMap ParamDecl.strings ++
    e.deprecated.toList.flatMap Deprecation.strings

def EnumDecl.strings (e : EnumDecl) : List String :=
  [e.name, e.description] ++ e.deprecated.toList.flatMap Deprecation.strings ++
    e.entries.flatMap EntryDecl.strings

def FieldDecl.strings (f : FieldDecl) : List String :=
  [f.type, f.name, f.description] ++ f.enumName.toList ++ f.units.toList

def MessageItem.strings : MessageItem → List String
  | .description text => [text]
  | .field f => f.strings
  | .deprecated d => d.strings
  | _ => []

def MessageDecl.strings (m : MessageDecl) : List String :=
  m.name :: m.items.flatMap MessageItem.strings

def Document.strings (d : Document) : List String :=
  d.includes ++ d.enums.flatMap EnumDecl.strings ++ d.messages.flatMap MessageDecl.strings

/-! ## Reading it back -/

section Children
variable {α : Type} {schema : Schema α} {parent : Element}

theorem leaf_wellFormed {name text : String} (h : TagNames name []) (ht : Plain text) :
    (Element.leaf name [] text).WellFormed := ⟨h, ht.not_lineEnd⟩

theorem described_wellFormed {text : String} (h : Plain text) :
    ∀ e ∈ described text, e.WellFormed := by
  intro e he
  obtain ⟨_, rfl⟩ := mem_noted.1 he
  exact leaf_wellFormed (by decide) h

theorem described_given {part : String → α}
    (hs : schema.slot "description" = some (single part Source.readText)) (text : String) :
    List.Forall₂ (ChildGives schema parent.tag) (described text) (noted part text) := by
  have hn : TagNames "description" [] := by decide
  exact forall₂_noted (child_given hn.tag_key hs fun _ => readText_leaf _ _ text)

theorem findSome?_map_none {γ δ ε : Type} {f : γ → δ} {g : δ → Option ε}
    (h : ∀ c, g (f c) = none) (cs : List γ) : (cs.map f).findSome? g = none := by
  rw [List.findSome?_eq_none_iff]
  intro d hd
  obtain ⟨c, _, rfl⟩ := List.mem_map.1 hd
  exact h c

end Children

section Deprecation
variable {d : Deprecation} (h : ∀ s ∈ d.strings, Plain s)
include h

theorem deprecation_wellFormed : d.element.WellFormed := by
  have hnames : TagNames "deprecated" ["since", "replaced_by"] := by decide
  exact ⟨hnames, (h d.note (by simp [Deprecation.strings])).not_lineEnd⟩

theorem read_deprecation (place : Place) :
    DeprecationPart.read place d.element.source = .ok d := by
  have ha : ∀ place, AttributesGive ⟨DeprecationPart.slot, none⟩ place
      [("since", d.since), ("replaced_by", d.replacedBy)]
      [d.since.map .since, d.replacedBy.map .replacedBy] := fun place =>
    .cons (option_given rfl _) (.cons (option_given rfl _) .nil)
  have hnote : Plain d.note := h d.note (by simp [Deprecation.strings])
  refine (read_leaf rfl rfl (deprecation_wellFormed h) hnote ha).trans ?_
  clear ha h
  obtain ⟨since, replacedBy, note⟩ := d
  by_cases hn : note = "" <;> cases since <;> cases replacedBy <;>
    simp [DeprecationPart.build, noted, hn, List.reduceOption]

end Deprecation

theorem deprecated_given {α : Type} {schema : Schema α} {parent : Element}
    {part : Option Deprecation → α} (hs : schema.slot "deprecated" = some ⟨fun place s =>
      (s.readOptional (DeprecationPart.read place) place).map part, false⟩)
    (hp : parent.WellFormed) {deprecated : Option Deprecation}
    (h : ∀ d ∈ deprecated.toList, ∀ s ∈ d.strings, Plain s) :
    List.Forall₂ (ChildGives schema parent.tag) (deprecated.toList.map Deprecation.element)
      (deprecated.toList.map fun d => part (some d)) := by
  apply forall₂_mapped
  intro d hd
  have hw := deprecation_wellFormed (h d hd)
  exact optional_given hp hw hw.1.tag_key hs (read_deprecation (h d hd))

section Param
variable {p : ParamDecl} (h : ∀ s ∈ p.strings, Plain s)
include h

theorem ParamDecl.wellFormed : p.element.WellFormed := by
  have hnames : TagNames "param" ["index", "label", "units", "reserved"] := by decide
  exact ⟨hnames, (h p.description (by simp [ParamDecl.strings])).not_lineEnd⟩

theorem read_param (place : Place) : ParamPart.read place p.element.source = .ok p := by
  have ha : ∀ place, AttributesGive ⟨ParamPart.slot, none⟩ place
      [("index", some (toString p.index)), ("label", p.label), ("units", p.units),
        ("reserved", some (toString p.reserved))]
      [some (.index p.index), p.label.map .label, p.units.map .units,
        some (.reserved p.reserved)] := fun place =>
    .cons (.some (single_given rfl (readByte_spelled _))) (.cons (option_given rfl _)
      (.cons (option_given rfl _) (.cons (.some (single_given rfl (readBool_spelled _))) .nil)))
  have hdescription : Plain p.description := h p.description (by simp [ParamDecl.strings])
  refine (read_leaf rfl rfl (ParamDecl.wellFormed h) hdescription ha).trans ?_
  clear ha h
  obtain ⟨index, label, units, reserved, description⟩ := p
  by_cases hn : description = "" <;> cases label <;> cases units <;>
    simp [ParamPart.build, required, noted, hn, List.reduceOption]

end Param

section Field
variable {f : FieldDecl} (h : ∀ s ∈ f.strings, Plain s)
include h

theorem FieldDecl.wellFormed : f.element.WellFormed := by
  have hnames : TagNames "field" ["type", "name", "enum", "units"] := by decide
  exact ⟨hnames, (h f.description (by simp [FieldDecl.strings])).not_lineEnd⟩

theorem read_field (place : Place) : FieldPart.read place f.element.source = .ok f := by
  have ha : ∀ place, AttributesGive ⟨FieldPart.slot, none⟩ place
      [("type", some f.type), ("name", some f.name), ("enum", f.enumName), ("units", f.units)]
      [some (.type f.type), some (.name f.name), f.enumName.map .enumName,
        f.units.map .units] := fun place =>
    .cons (.some (text_given rfl _)) (.cons (.some (text_given rfl _))
      (.cons (option_given rfl _) (.cons (option_given rfl _) .nil)))
  have hdescription : Plain f.description := h f.description (by simp [FieldDecl.strings])
  refine (read_leaf rfl rfl (FieldDecl.wellFormed h) hdescription ha).trans ?_
  clear ha h
  obtain ⟨type, name, enumName, units, description⟩ := f
  by_cases hn : description = "" <;> cases enumName <;> cases units <;>
    simp [FieldPart.build, required, noted, hn, List.reduceOption, ok_bind]

end Field

section Entry
variable {e : EntryDecl}

def EntryDecl.children (e : EntryDecl) : List EntryPart :=
  noted .description e.description ++ e.params.map .param ++
    e.deprecated.toList.map (fun d => .deprecated (some d)) ++
    if e.wip then [.wip (some ())] else []

theorem EntryDecl.apart : Apart ⟨EntryPart.slot, none⟩ EntryPart.key e.children where
  once := by
    intro k slot hs hr
    obtain ⟨name, value, description, params, deprecated, wip⟩ := e
    simp only [EntryPart.slot] at hs
    split at hs <;> cases hs <;> try cases hr
    all_goals by_cases hn : description = "" <;> cases deprecated <;> cases wip <;>
      simp [EntryDecl.children, EntryPart.key, List.filter_map, Function.comp_def, noted, hn]
  fresh := by
    intro v hv
    cases v with
    | name s | value s => simp [EntryDecl.children] at hv
    | _ => simp [EntryPart.key]

theorem EntryDecl.build : EntryPart.build
    ([some (.name e.name), e.value.map .value].reduceOption ++ e.children) = .ok e := by
  obtain ⟨name, value, description, params, deprecated, wip⟩ := e
  by_cases hn : description = "" <;> cases value <;> cases deprecated <;> cases wip <;>
    simp [EntryPart.build, EntryDecl.children, required, noted, hn, List.reduceOption,
      findSome?_map_none]

variable (h : ∀ s ∈ e.strings, Plain s)
include h

theorem EntryDecl.plain_params : ∀ p ∈ e.params, ∀ s ∈ p.strings, Plain s := fun p hp s hs =>
  h s (by simp [EntryDecl.strings]; grind)

theorem EntryDecl.plain_deprecated : ∀ d ∈ e.deprecated.toList, ∀ s ∈ d.strings, Plain s :=
  fun d hd s hs => h s (by simp [EntryDecl.strings]; grind)

theorem EntryDecl.wellFormed : e.element.WellFormed := by
  have hnames : TagNames "entry" ["name", "value"] := by decide
  refine ⟨hnames, Element.allWellFormed_iff.2 ?_⟩
  intro x hx
  simp only [List.mem_append, List.mem_map] at hx
  rcases hx with ((hx | ⟨p, hp, rfl⟩) | ⟨d, hd, rfl⟩) | hx
  · exact described_wellFormed (h _ (by simp [EntryDecl.strings])) x hx
  · exact ParamDecl.wellFormed (EntryDecl.plain_params h p hp)
  · exact deprecation_wellFormed (EntryDecl.plain_deprecated h d hd)
  · split at hx
    · rw [List.mem_singleton.1 hx]
      exact leaf_wellFormed (by decide) (by decide)
    · cases hx

theorem read_entry (place : Place) : EntryPart.read place e.element.source = .ok e := by
  have ha : ∀ place, AttributesGive ⟨EntryPart.slot, none⟩ place
      [("name", some e.name), ("value", e.value)]
      [some (.name e.name), e.value.map .value] := fun place =>
    .cons (.some (text_given rfl _)) (.cons (option_given rfl _) .nil)
  have hw := EntryDecl.wellFormed h
  have hparams : List.Forall₂ (ChildGives ⟨EntryPart.slot, none⟩ e.element.tag)
      (e.params.map ParamDecl.element) (e.params.map .param) := by
    apply forall₂_mapped
    intro p hp
    have hplain := EntryDecl.plain_params h p hp
    exact child_given (ParamDecl.wellFormed hplain).1.tag_key rfl (read_param hplain)
  have hdeprecated : List.Forall₂ (ChildGives ⟨EntryPart.slot, none⟩ e.element.tag)
      (e.deprecated.toList.map Deprecation.element)
      (e.deprecated.toList.map fun d => .deprecated (some d)) :=
    deprecated_given rfl hw (EntryDecl.plain_deprecated h)
  have hwip : List.Forall₂ (ChildGives ⟨EntryPart.slot, none⟩ e.element.tag)
      (if e.wip then [.leaf "wip" [] ""] else []) (if e.wip then [.wip (some ())] else []) := by
    split
    · have hmark : (Element.leaf "wip" [] "").WellFormed := leaf_wellFormed (by decide) (by decide)
      exact .cons (optional_given hw hmark hmark.1.tag_key rfl fun _ => hmark.readPresence) .nil
    · exact .nil
  have hc : List.Forall₂ (ChildGives ⟨EntryPart.slot, none⟩ e.element.tag) _ e.children :=
    List.rel_append (List.rel_append (List.rel_append (described_given rfl _) hparams) hdeprecated)
      hwip
  refine (read_node EntryPart.keyed EntryPart.build_sameByKey hw ha hc EntryDecl.apart).trans ?_
  exact EntryDecl.build

end Entry

section Enum
variable {e : EnumDecl}

def EnumDecl.children (e : EnumDecl) : List EnumPart :=
  noted .description e.description ++ e.deprecated.toList.map (fun d => .deprecated (some d)) ++
    e.entries.map .entry

theorem EnumDecl.apart : Apart ⟨EnumPart.slot, none⟩ EnumPart.key e.children where
  once := by
    intro k slot hs hr
    obtain ⟨name, bitmask, description, deprecated, entries⟩ := e
    simp only [EnumPart.slot] at hs
    split at hs <;> cases hs <;> try cases hr
    all_goals by_cases hn : description = "" <;> cases deprecated <;>
      simp [EnumDecl.children, EnumPart.key, List.filter_map, Function.comp_def, noted, hn]
  fresh := by
    intro v hv
    cases v with
    | name s | bitmask b => simp [EnumDecl.children] at hv
    | _ => simp [EnumPart.key]

theorem EnumDecl.build : EnumPart.build
    ([some (.name e.name), some (.bitmask e.bitmask)].reduceOption ++ e.children) = .ok e := by
  obtain ⟨name, bitmask, description, deprecated, entries⟩ := e
  by_cases hn : description = "" <;> cases deprecated <;>
    simp [EnumPart.build, EnumDecl.children, required, noted, hn, List.reduceOption,
      findSome?_map_none]

variable (h : ∀ s ∈ e.strings, Plain s)
include h

theorem EnumDecl.plain_deprecated : ∀ d ∈ e.deprecated.toList, ∀ s ∈ d.strings, Plain s :=
  fun d hd s hs => h s (by simp [EnumDecl.strings]; grind)

theorem EnumDecl.plain_entries : ∀ entry ∈ e.entries, ∀ s ∈ entry.strings, Plain s :=
  fun entry hentry s hs => h s (by simp [EnumDecl.strings]; grind)

theorem EnumDecl.wellFormed : e.element.WellFormed := by
  have hnames : TagNames "enum" ["name", "bitmask"] := by decide
  refine ⟨hnames, Element.allWellFormed_iff.2 ?_⟩
  intro x hx
  simp only [List.mem_append, List.mem_map] at hx
  rcases hx with (hx | ⟨d, hd, rfl⟩) | ⟨entry, hentry, rfl⟩
  · exact described_wellFormed (h _ (by simp [EnumDecl.strings])) x hx
  · exact deprecation_wellFormed (EnumDecl.plain_deprecated h d hd)
  · exact EntryDecl.wellFormed (EnumDecl.plain_entries h entry hentry)

theorem read_enum (place : Place) : EnumPart.read place e.element.source = .ok e := by
  have ha : ∀ place, AttributesGive ⟨EnumPart.slot, none⟩ place
      [("name", some e.name), ("bitmask", some (toString e.bitmask))]
      [some (.name e.name), some (.bitmask e.bitmask)] := fun place =>
    .cons (.some (text_given rfl _)) (.cons (.some (single_given rfl (readBool_spelled _))) .nil)
  have hw := EnumDecl.wellFormed h
  have hdeprecated : List.Forall₂ (ChildGives ⟨EnumPart.slot, none⟩ e.element.tag)
      (e.deprecated.toList.map Deprecation.element)
      (e.deprecated.toList.map fun d => .deprecated (some d)) :=
    deprecated_given rfl hw (EnumDecl.plain_deprecated h)
  have hentries : List.Forall₂ (ChildGives ⟨EnumPart.slot, none⟩ e.element.tag)
      (e.entries.map EntryDecl.element) (e.entries.map .entry) := by
    apply forall₂_mapped
    intro entry hentry
    have hplain := EnumDecl.plain_entries h entry hentry
    exact child_given (EntryDecl.wellFormed hplain).1.tag_key rfl (read_entry hplain)
  have hc : List.Forall₂ (ChildGives ⟨EnumPart.slot, none⟩ e.element.tag) _ e.children :=
    List.rel_append (List.rel_append (described_given rfl _) hdeprecated) hentries
  refine (read_node EnumPart.keyed EnumPart.build_sameByKey hw ha hc EnumDecl.apart).trans ?_
  exact EnumDecl.build

end Enum

section Item
variable {i : MessageItem}

def MessageItem.name : MessageItem → String
  | .description _ => "description"
  | .field _ => "field"
  | .extensions => "extensions"
  | .wip => "wip"
  | .deprecated _ => "deprecated"
  | .other => "other"

theorem MessageItem.slot_name (i : MessageItem) : MessagePart.slot i.name = none := by
  cases i <;> rfl

variable (h : ∀ s ∈ i.strings, Plain s)
include h

theorem MessageItem.wellFormed : i.element.WellFormed := by
  cases i with
  | description text => exact leaf_wellFormed (by decide) (h text (by simp [MessageItem.strings]))
  | field f => exact FieldDecl.wellFormed h
  | extensions => exact leaf_wellFormed (by decide) (by decide)
  | wip => exact leaf_wellFormed (by decide) (by decide)
  | deprecated d => exact deprecation_wellFormed h
  | other => exact leaf_wellFormed (by decide) (by decide)

theorem MessageItem.tag_key : i.element.tag.key = i.name := by
  have hw := MessageItem.wellFormed h
  cases i <;> exact hw.1.tag_key

theorem read_item (place : Place) : MessageItem.read place i.element.source = .ok i := by
  have hkey := MessageItem.tag_key h
  have hpresence := (MessageItem.wellFormed h).readPresence
  cases i with
  | description text =>
    simp only [MessageItem.read, hkey, MessageItem.name]
    show Except.map _ (Element.leaf "description" [] text).source.readText = _
    rw [readText_leaf]
    rfl
  | field f =>
    simp only [MessageItem.read, hkey, MessageItem.name]
    show Except.map _ (FieldPart.read place f.element.source) = _
    rw [read_field h]
    rfl
  | deprecated d =>
    simp only [MessageItem.read, hkey, MessageItem.name]
    show Except.map _ (DeprecationPart.read place d.element.source) = _
    rw [read_deprecation h]
    rfl
  | extensions | wip | other =>
    simp only [MessageItem.read, hkey, MessageItem.name, hpresence]
    rfl

end Item

section Message
variable {m : MessageDecl}

theorem sources_siblings (es : List Element) :
    (Element.siblings es (.closed [])).sources = es.map Element.source := by
  induction es with
  | nil => rfl
  | cons e es ih => rw [Element.siblings, Content.sources, ih, List.map_cons]

variable (h : ∀ s ∈ m.strings, Plain s)
include h

theorem MessageDecl.plain_items : ∀ i ∈ m.items, ∀ s ∈ i.strings, Plain s := fun i hi s hs =>
  h s (by simp [MessageDecl.strings]; grind)

theorem MessageDecl.wellFormed : m.element.WellFormed := by
  have hnames : TagNames "message" ["id", "name"] := by decide
  refine ⟨hnames, Element.allWellFormed_iff.2 ?_⟩
  intro x hx
  obtain ⟨i, hi, rfl⟩ := List.mem_map.1 hx
  exact MessageItem.wellFormed (MessageDecl.plain_items h i hi)

theorem itemsOf_element (place : Place) : ItemsOf place m.element.inner m.items := by
  have hsources : (m.element.inner.sources).dropWhile Source.isBlank =
      m.items.map fun i => i.element.source := by
    show ((Element.siblings (m.items.map MessageItem.element) (.closed [])).sources).dropWhile _ = _
    rw [sources_siblings, List.map_map]
    cases m.items <;> rfl
  rw [ItemsOf, hsources, List.forall₂_map_left_iff, List.forall₂_same]
  intro i hi
  exact read_item (MessageDecl.plain_items h i hi) place

theorem no_slot_element : ∀ e ∈ m.element.inner.elements, MessagePart.slot e.1.key = none := by
  have helements : m.element.inner.elements =
      (m.items.map MessageItem.element).map fun e => (e.tag, e.inner) := by
    rw [MessageDecl.element, Element.inner, Element.elements_siblings]
    exact List.append_nil _
  intro e he
  rw [helements] at he
  obtain ⟨x, hx, rfl⟩ := List.mem_map.1 he
  obtain ⟨i, hi, rfl⟩ := List.mem_map.1 hx
  rw [MessageItem.tag_key (MessageDecl.plain_items h i hi), MessageItem.slot_name]

theorem read_message (place : Place) : MessagePart.read place m.element.source = .ok m := by
  have ha : AttributesGive ⟨MessagePart.slot, some MessagePart.body⟩ ⟨m.element.tag, place.ahead⟩
      [("id", some (toString m.id)), ("name", some m.name)]
      [some (.id m.id), some (.name m.name)] :=
    .cons (.some (single_given rfl (readWord_spelled _))) (.cons (.some (text_given rfl _)) .nil)
  have hw := MessageDecl.wellFormed h
  obtain ⟨met, hmet, hkeys⟩ := tag_attributes_given hw.1 ha
  have hfresh : bodyKey ∉ met := fun hk => absurd (hkeys _ hk) (by decide)
  have hchildren : Schema.children ⟨MessagePart.slot, some MessagePart.body⟩
      ⟨m.element.tag, place.ahead⟩ met m.element.inner = .ok (m.items.map .item) :=
    (message_children hfresh hw.sound (no_slot_element h)).2 ⟨m.items, itemsOf_element h _, rfl⟩
  refine (Schema.read_eq hmet hchildren).trans ?_
  rw [MessagePart.build_items]
  rfl

end Message

section Document
variable {d : Document}

def Document.children (d : Document) : List DocumentPart :=
  d.includes.map .included ++ d.version.toList.map (fun n => .version (some n)) ++
    d.number.toList.map (fun n => .number (some n)) ++ [.enums d.enums, .messages d.messages]

theorem Document.apart : Apart ⟨DocumentPart.slot, none⟩ DocumentPart.key d.children where
  once := by
    intro k slot hs hr
    obtain ⟨includes, version, number, enums, messages⟩ := d
    simp only [DocumentPart.slot] at hs
    split at hs <;> cases hs <;> try cases hr
    all_goals cases version <;> cases number <;>
      simp [Document.children, DocumentPart.key, List.filter_map, Function.comp_def]
  fresh := by
    intro v _
    cases v <;> simp [DocumentPart.key]

theorem Document.build : DocumentPart.build d.children = .ok d := by
  obtain ⟨includes, version, number, enums, messages⟩ := d
  cases version <;> cases number <;>
    simp [DocumentPart.build, Document.children, findSome?_map_none]

theorem number_wellFormed {name : String} (hn : TagNames name []) (n : UInt32) :
    (Element.leaf name [] (toString n)).WellFormed := by
  refine ⟨hn, ?_⟩
  intro c hc
  rw [toList_word] at hc
  have hdigit := Nat.isDigit_of_mem_toDigits (by decide) (by decide) hc
  simp only [isLineEnd, Bool.or_eq_false_iff, beq_eq_false_iff_ne]
  exact ⟨⟨isDigit_ne hdigit rfl, isDigit_ne hdigit rfl⟩, isDigit_ne hdigit rfl⟩

theorem number_given {parent : Element} {part : Option UInt32 → DocumentPart} {name : String}
    (hn : TagNames name [])
    (hs : DocumentPart.slot name = some (optional part Source.readWord))
    (hp : parent.WellFormed) (number : Option UInt32) :
    List.Forall₂ (ChildGives ⟨DocumentPart.slot, none⟩ parent.tag)
      (number.toList.map fun n => .leaf name [] (toString n))
      (number.toList.map fun n => part (some n)) := by
  apply forall₂_mapped
  intro n _
  exact optional_given hp (number_wellFormed hn n) hn.tag_key hs fun _ => readWord_leaf name [] n

variable (h : ∀ s ∈ d.strings, Plain s)
include h

theorem Document.plain_enums : ∀ e ∈ d.enums, ∀ s ∈ e.strings, Plain s := fun e he s hs =>
  h s (by simp [Document.strings]; grind)

theorem Document.plain_messages : ∀ m ∈ d.messages, ∀ s ∈ m.strings, Plain s := fun m hm s hs =>
  h s (by simp [Document.strings]; grind)

theorem Document.wellFormed : d.element.WellFormed := by
  have hnames : TagNames "mavlink" [] := by decide
  have henums : TagNames "enums" [] := by decide
  have hmessages : TagNames "messages" [] := by decide
  refine ⟨hnames, Element.allWellFormed_iff.2 ?_⟩
  intro x hx
  simp only [List.mem_append, List.mem_map, List.mem_cons, List.not_mem_nil, or_false] at hx
  rcases hx with ((⟨s, hs, rfl⟩ | ⟨n, _, rfl⟩) | ⟨n, _, rfl⟩) | rfl | rfl
  · exact leaf_wellFormed (by decide) (h s (by simp [Document.strings, hs]))
  · exact number_wellFormed (by decide) n
  · exact number_wellFormed (by decide) n
  · refine ⟨henums, Element.allWellFormed_iff.2 ?_⟩
    intro x hx
    obtain ⟨e, he, rfl⟩ := List.mem_map.1 hx
    exact EnumDecl.wellFormed (Document.plain_enums h e he)
  · refine ⟨hmessages, Element.allWellFormed_iff.2 ?_⟩
    intro x hx
    obtain ⟨m, hm, rfl⟩ := List.mem_map.1 hx
    exact MessageDecl.wellFormed (Document.plain_messages h m hm)

theorem read_enums (place : Place) :
    readEnums place (Element.node "enums" [] (d.enums.map EnumDecl.element)).source =
      .ok d.enums := by
  rw [readEnums_eq]
  refine read_listed (by decide) (by decide) (by decide) ?_ ?_ place
  · intro e he
    have hw := EnumDecl.wellFormed (Document.plain_enums h e he)
    exact ⟨hw, hw.1.tag_key⟩
  · exact fun e he => read_enum (Document.plain_enums h e he)

theorem read_messages (place : Place) :
    readMessages place (Element.node "messages" [] (d.messages.map MessageDecl.element)).source =
      .ok d.messages := by
  rw [readMessages_eq]
  refine read_listed (by decide) (by decide) (by decide) ?_ ?_ place
  · intro m hm
    have hw := MessageDecl.wellFormed (Document.plain_messages h m hm)
    exact ⟨hw, hw.1.tag_key⟩
  · exact fun m hm => read_message (Document.plain_messages h m hm)

theorem read_document (place : Place) :
    Schema.read ⟨DocumentPart.slot, none⟩ DocumentPart.build place d.element.source = .ok d := by
  have hw := Document.wellFormed h
  have hincludes : List.Forall₂ (ChildGives ⟨DocumentPart.slot, none⟩ d.element.tag)
      (d.includes.map (.leaf "include" [])) (d.includes.map .included) := by
    apply forall₂_mapped
    intro s _
    have hn : TagNames "include" [] := by decide
    exact child_given hn.tag_key rfl fun _ => readText_leaf _ _ s
  have hversion := number_given (by decide : TagNames "version" []) rfl hw d.version
  have hnumber := number_given (by decide : TagNames "dialect" []) rfl hw d.number
  have hlists : List.Forall₂ (ChildGives ⟨DocumentPart.slot, none⟩ d.element.tag)
      [.node "enums" [] (d.enums.map EnumDecl.element),
        .node "messages" [] (d.messages.map MessageDecl.element)]
      [.enums d.enums, .messages d.messages] := by
    have henums : TagNames "enums" [] := by decide
    have hmessages : TagNames "messages" [] := by decide
    exact .cons (child_given henums.tag_key rfl (read_enums h))
      (.cons (child_given hmessages.tag_key rfl (read_messages h)) .nil)
  have hc : List.Forall₂ (ChildGives ⟨DocumentPart.slot, none⟩ d.element.tag) _ d.children :=
    List.rel_append (List.rel_append (List.rel_append hincludes hversion) hnumber) hlists
  refine (read_node DocumentPart.keyed DocumentPart.build_sameByKey hw (fun _ => .nil) hc
    Document.apart).trans ?_
  exact Document.build

end Document

/-- A document whose texts are plain is read back from its text. -/
theorem parse_written (d : Document) (h : ∀ s ∈ d.strings, Plain s) :
    Document.parse d.written = .ok d := by
  have hw := Document.wellFormed h
  rw [Document.parse, Document.written, String.toList_ofList, hw.ofDocument]
  show (d.element.tag.check >>= fun _ => _) = _
  rw [Content.check_sound hw.tag_clean.2, ok_bind]
  exact read_document h ⟨d.element.tag, none⟩

def sample : Document where
  includes := ["common.xml", "a & b"]
  version := some 3
  number := some 0
  enums := [{
    name := "MAV_CMD"
    bitmask := true
    description := "\"x\" < 'y'"
    deprecated := some ⟨some "2020-01", none, "see > there"⟩
    entries := [
      ⟨"A", some "0x10", "",
        [⟨1, some "Lat", some "deg", false, "how far"⟩, ⟨2, none, none, true, ""⟩], none, true⟩,
      ⟨"B", none, "second", [], some ⟨none, some "A", ""⟩, false⟩] }]
  messages := [{
    id := 4294967295
    name := "M"
    items := [.wip, .description "text",
      .field ⟨"uint8_t[3]", "f", some "MAV_CMD", some "m/s", "in &amp;"⟩, .extensions,
      .deprecated ⟨none, none, ""⟩, .field ⟨"char", "g", none, none, ""⟩, .extensions] }]

theorem parse_written_sample :
    (∀ s ∈ sample.strings, Plain s) ∧ Document.parse sample.written = .ok sample := by
  have h : ∀ s ∈ sample.strings, Plain s := by decide +kernel
  exact ⟨h, parse_written sample h⟩

end DialectBindings.Definition
