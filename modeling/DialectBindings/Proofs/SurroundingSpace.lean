import DialectBindings.Definition.Check
import DialectBindings.Definition.Reader
import DialectBindings.Dialect.Wire
import DialectBindings.Proofs.Conversion
import DialectBindings.Proofs.Parts

/-!
# Dialects without space around texts

The space at the ends of the texts of fields, parameters and deprecations, and whether enums and
entries are deprecated: what is read and checked without these is what is read and checked with
them, but for these. The wire does not know them.
-/

set_option autoImplicit false

namespace DialectBindings.Text

def unspaced (s : String) : String := String.ofList (trimBy isSpace s.toList)

end DialectBindings.Text

namespace DialectBindings
open Text

def Deprecation.bare (d : Deprecation) : Deprecation := { d with note := unspaced d.note }

namespace Definition

def ParamDecl.bare (p : ParamDecl) : ParamDecl := { p with description := unspaced p.description }

def EntryDecl.bare (e : EntryDecl) : EntryDecl :=
  { e with params := e.params.map ParamDecl.bare, deprecated := none }

def EnumDecl.bare (e : EnumDecl) : EnumDecl :=
  { e with entries := e.entries.map EntryDecl.bare, deprecated := none }

def FieldDecl.bare (f : FieldDecl) : FieldDecl := { f with description := unspaced f.description }

def MessageItem.bare : MessageItem → MessageItem
  | .field f => .field f.bare
  | .deprecated d => .deprecated d.bare
  | item => item

def MessageDecl.bare (m : MessageDecl) : MessageDecl :=
  { m with items := m.items.map MessageItem.bare }

def Document.bare (d : Document) : Document :=
  { d with enums := d.enums.map EnumDecl.bare, messages := d.messages.map MessageDecl.bare }

end Definition

def Field.bare (f : Field) : Field := { f with description := unspaced f.description }

def Message.bare (m : Message) : Message :=
  { m with fields := m.fields.map Field.bare, deprecated := m.deprecated.map Deprecation.bare }

def Param.bare (p : Param) : Param := { p with description := unspaced p.description }

def Entry.bare (e : Entry) : Entry := { e with params := e.params.map Param.bare, deprecated := none }

def Enum.bare (e : Enum) : Enum :=
  { e with entries := e.entries.map Entry.bare, deprecated := none }

def Dialect.bare (d : Dialect) : Dialect :=
  { d with enums := d.enums.map Enum.bare, messages := d.messages.map Message.bare }

/-! ## The wire -/

namespace Message
variable (m : Message)

theorem sortedFields_bare : m.bare.sortedFields = m.sortedFields.map Field.bare := by
  rw [sortedFields, sortedFields, baseFields, baseFields, bare, List.filter_map]
  apply Eq.symm
  apply List.map_mergeSort
  intro f _ g _
  rfl

theorem wireFields_bare : m.bare.wireFields = m.wireFields.map Field.bare := by
  rw [wireFields, wireFields, sortedFields_bare, extensionFields, extensionFields, bare,
    List.filter_map, List.map_append]
  rfl

theorem payloadLength_bare : m.bare.payloadLength = m.payloadLength := by
  rw [payloadLength, payloadLength, baseFields, baseFields, bare, List.filter_map, List.foldr_map]
  rfl

theorem crcExtra_bare : m.bare.crcExtra = m.crcExtra := by
  have hsignature : m.bare.signature = m.signature := by
    rw [signature, signature, sortedFields_bare, List.flatMap_map]
    rfl
  rw [crcExtra, crcExtra, hsignature]

theorem magic_bare : m.bare.magic = m.magic := by
  rw [magic, magic, crcExtra_bare]
  rfl

/-- What both ends of a link have to agree on. -/
def layout : UInt32 × String × List (String × FieldType) × Nat × UInt8 × Option UInt8 :=
  (m.id, m.name, m.wireFields.map fun f => (f.name, f.type), m.payloadLength, m.crcExtra, m.magic)

theorem layout_bare : m.bare.layout = m.layout := by
  rw [layout, wireFields_bare, List.map_map, payloadLength_bare, crcExtra_bare, magic_bare]
  rfl

end Message

namespace Definition
open Results

/-! ## Checks -/

theorem EntryDecl.numbered_bare (e : EntryDecl) (n : UInt32) :
    e.bare.numbered n = (e.numbered n).bare := by
  have hparams : (((e.params.map ParamDecl.bare).filter (!·.reserved)).map fun p =>
      Param.mk p.index p.label p.units p.description).mergeSort (fun p q => p.index ≤ q.index) =
      ((((e.params.filter (!·.reserved)).map fun p =>
        Param.mk p.index p.label p.units p.description)).mergeSort
          fun p q => p.index ≤ q.index).map Param.bare := by
    rw [List.map_mergeSort (s := fun p q => decide (p.index ≤ q.index)), List.filter_map,
      List.map_map, List.map_map]
    · rfl
    · intro p _ q _
      rfl
  rw [EntryDecl.numbered, EntryDecl.numbered, Entry.bare, ← hparams]
  rfl

theorem checkEntries_bare (enum : String) (next : UInt32) (es : List EntryDecl) :
    checkEntries enum next (es.map EntryDecl.bare) =
      (checkEntries enum next es).map (List.map Entry.bare) := by
  induction es generalizing next with
  | nil => rfl
  | cons e es ih =>
    rw [List.map_cons]
    cases hn : e.number? next with
    | some n =>
      have hbare : e.bare.number? next = some n := hn
      rw [checkEntries_cons hn, checkEntries_cons hbare, ih, EntryDecl.numbered_bare]
      cases checkEntries enum (n + 1) es <;> rfl
    | none =>
      obtain ⟨raw, hv, hr⟩ := EntryDecl.number?_none.1 hn
      have hbare : e.bare.value = some raw := hv
      rw [checkEntries_stop hv hr, checkEntries_stop hbare hr]
      rfl

theorem checkEnum_bare (e : EnumDecl) : checkEnum e.bare = (checkEnum e).map Enum.bare := by
  rw [checkEnum, checkEnum]
  show (checkEntries e.name 0 (e.entries.map EntryDecl.bare) >>= _) = _
  rw [checkEntries_bare]
  cases checkEntries e.name 0 e.entries <;> rfl

theorem joinEnum_bare (enums : List Enum) (e : Enum) :
    joinEnum (enums.map Enum.bare) e.bare = (joinEnum enums e).map Enum.bare := by
  have hany : (enums.map Enum.bare).any (·.name == e.bare.name) = enums.any (·.name == e.name) := by
    rw [List.any_map]
    rfl
  rw [joinEnum, joinEnum, hany]
  split
  · rw [List.map_map, List.map_map]
    apply List.map_congr_left
    intro old _
    show (if old.name == e.name then _ else _) = Enum.bare (if old.name == e.name then _ else _)
    split
    · simp [Enum.bare]
    · rfl
  · rw [List.map_append]
    rfl

theorem checkEnums_bare (joined : List Enum) (es : List EnumDecl) :
    checkEnums (joined.map Enum.bare) (es.map EnumDecl.bare) =
      (checkEnums joined es).map (List.map Enum.bare) := by
  induction es generalizing joined with
  | nil => rfl
  | cons e es ih =>
    rw [List.map_cons, checkEnums, checkEnums, checkEnum_bare]
    cases checkEnum e with
    | error fault => rfl
    | ok checked =>
      show checkEnums (joinEnum (joined.map Enum.bare) checked.bare) (es.map EnumDecl.bare) = _
      rw [joinEnum_bare, ih]
      rfl

theorem checkField_bare (message : String) (isExtension : Bool) (f : FieldDecl) :
    checkField message isExtension f.bare = (checkField message isExtension f).map Field.bare := by
  simp only [checkField, FieldDecl.bare]
  rcases readType f.type with ⟨_ | _⟩ | type <;> rfl

theorem addItem_bare (m : Message) (isExtension : Bool) (item : MessageItem) :
    addItem (m.bare, isExtension) item.bare =
      (addItem (m, isExtension) item).map fun state => (state.1.bare, state.2) := by
  cases item with
  | field f =>
    show (checkField m.name isExtension f.bare >>= _) = _
    rw [checkField_bare, addItem]
    cases checkField m.name isExtension f with
    | error fault => rfl
    | ok field =>
      show Except.ok _ = Except.ok _
      simp [Message.bare]
  | _ => rfl

theorem addItems_bare (m : Message) (isExtension : Bool) (items : List MessageItem) :
    (items.map MessageItem.bare).foldlM addItem (m.bare, isExtension) =
      (items.foldlM addItem (m, isExtension)).map fun state => (state.1.bare, state.2) := by
  induction items generalizing m isExtension with
  | nil => rfl
  | cons item items ih =>
    rw [List.map_cons, List.foldlM_cons, List.foldlM_cons, addItem_bare]
    cases addItem (m, isExtension) item with
    | error fault => rfl
    | ok state => exact ih state.1 state.2

theorem checkMessage_bare (m : MessageDecl) :
    checkMessage m.bare = (checkMessage m).map Message.bare := by
  let blank : Message := ⟨m.id, m.name, "", [], false, none⟩
  have hitems := addItems_bare blank false m.items
  show ((m.items.map MessageItem.bare).foldlM addItem (blank.bare, false) >>= _) =
    (m.items.foldlM addItem (blank, false) >>= _).map Message.bare
  rw [hitems]
  cases m.items.foldlM addItem (blank, false) <;> rfl

theorem checkMessages_bare (before : List Message) (ms : List MessageDecl) :
    checkMessages (before.map Message.bare) (ms.map MessageDecl.bare) =
      (checkMessages before ms).map (List.map Message.bare) := by
  induction ms generalizing before with
  | nil => rfl
  | cons m ms ih =>
    rw [List.map_cons, checkMessages, checkMessages, checkMessage_bare]
    cases checkMessage m with
    | error fault => rfl
    | ok message =>
      have hfind : (before.map Message.bare).find? (·.id == message.bare.id) =
          (before.find? (·.id == message.id)).map Message.bare := by
        rw [List.find?_map]
        rfl
      simp only [Except.map, ok_bind, hfind]
      cases before.find? (·.id == message.id) with
      | some first => rfl
      | none =>
        have happend : before.map Message.bare ++ [message.bare] =
            (before ++ [message]).map Message.bare := by
          rw [List.map_append]
          rfl
        show checkMessages (before.map Message.bare ++ [message.bare]) _ = _
        rw [happend, ih]
        rfl

/-- A document is checked without what does not count as it is with it. -/
theorem Document.check_bare (d : Document) : d.bare.check = d.check.map Dialect.bare := by
  rw [Document.check, Document.check]
  show (checkEnums (List.map Enum.bare []) (d.enums.map EnumDecl.bare) >>= fun enums =>
    checkMessages (List.map Message.bare []) (d.messages.map MessageDecl.bare) >>= _) = _
  rw [checkEnums_bare, checkMessages_bare]
  cases checkEnums [] d.enums with
  | error fault => rfl
  | ok enums => cases checkMessages [] d.messages <;> rfl

/-! ## Records -/

def DeprecationPart.bare : DeprecationPart → DeprecationPart
  | .note s => .note (unspaced s)
  | part => part

theorem getD_unspaced (s? : Option String) :
    (s?.map unspaced).getD "" = unspaced (s?.getD "") := by
  cases s? <;> rfl

theorem DeprecationPart.build_bare (vs : List DeprecationPart) :
    (build vs).map Deprecation.bare = build (vs.map bare) := by
  unfold build
  rw [findSome?_kept (by intro p; cases p <;> rfl), findSome?_kept (by intro p; cases p <;> rfl),
    findSome?_changed unspaced (by intro p; cases p <;> rfl), getD_unspaced]
  rfl

def ParamPart.bare : ParamPart → ParamPart
  | .description s => .description (unspaced s)
  | part => part

theorem ParamPart.build_bare (vs : List ParamPart) :
    (build vs).map ParamDecl.bare = build (vs.map bare) := by
  unfold build
  rw [findSome?_kept (by intro p; cases p <;> rfl), findSome?_kept (by intro p; cases p <;> rfl),
    findSome?_kept (by intro p; cases p <;> rfl), findSome?_kept (by intro p; cases p <;> rfl),
    findSome?_changed unspaced (by intro p; cases p <;> rfl), getD_unspaced, map_bind]
  rfl

def FieldPart.bare : FieldPart → FieldPart
  | .description s => .description (unspaced s)
  | part => part

theorem FieldPart.build_bare (vs : List FieldPart) :
    (build vs).map FieldDecl.bare = build (vs.map bare) := by
  unfold build
  rw [findSome?_kept (by intro p; cases p <;> rfl), findSome?_kept (by intro p; cases p <;> rfl),
    findSome?_kept (by intro p; cases p <;> rfl), findSome?_kept (by intro p; cases p <;> rfl),
    findSome?_changed unspaced (by intro p; cases p <;> rfl), getD_unspaced]
  simp only [map_bind]
  rfl

theorem join_map_none {α β : Type} (a? : Option α) :
    (a?.map fun _ => (none : Option β)).join = none := by
  cases a? <;> rfl

def EntryPart.bare : EntryPart → EntryPart
  | .param p => .param p.bare
  | .deprecated _ => .deprecated none
  | part => part

theorem EntryPart.build_bare (vs : List EntryPart) :
    (build vs).map EntryDecl.bare = build (vs.map bare) := by
  unfold build
  rw [findSome?_kept (by intro p; cases p <;> rfl), findSome?_kept (by intro p; cases p <;> rfl),
    findSome?_kept (by intro p; cases p <;> rfl),
    filterMap_changed ParamDecl.bare (by intro p; cases p <;> rfl),
    findSome?_changed (fun _ => none) (by intro p; cases p <;> rfl),
    findSome?_kept (by intro p; cases p <;> rfl), join_map_none, map_bind]
  rfl

def EnumPart.bare : EnumPart → EnumPart
  | .entry e => .entry e.bare
  | .deprecated _ => .deprecated none
  | part => part

theorem EnumPart.build_bare (vs : List EnumPart) :
    (build vs).map EnumDecl.bare = build (vs.map bare) := by
  unfold build
  rw [findSome?_kept (by intro p; cases p <;> rfl), findSome?_kept (by intro p; cases p <;> rfl),
    findSome?_kept (by intro p; cases p <;> rfl),
    findSome?_changed (fun _ => none) (by intro p; cases p <;> rfl),
    filterMap_changed EntryDecl.bare (by intro p; cases p <;> rfl), join_map_none, map_bind]
  rfl

def MessagePart.bare : MessagePart → MessagePart
  | .item i => .item i.bare
  | part => part

theorem MessagePart.build_bare (vs : List MessagePart) :
    (build vs).map MessageDecl.bare = build (vs.map bare) := by
  unfold build
  rw [findSome?_kept (by intro p; cases p <;> rfl), findSome?_kept (by intro p; cases p <;> rfl),
    filterMap_changed MessageItem.bare (by intro p; cases p <;> rfl)]
  simp only [map_bind]
  rfl

def DocumentPart.bare : DocumentPart → DocumentPart
  | .enums es => .enums (es.map EnumDecl.bare)
  | .messages ms => .messages (ms.map MessageDecl.bare)
  | part => part

theorem DocumentPart.build_bare (vs : List DocumentPart) :
    (build vs).map Document.bare = build (vs.map bare) := by
  unfold build
  rw [filterMap_kept (by intro p; cases p <;> rfl), findSome?_kept (by intro p; cases p <;> rfl),
    findSome?_kept (by intro p; cases p <;> rfl),
    findSome?_changed (List.map EnumDecl.bare) (by intro p; cases p <;> rfl),
    findSome?_changed (List.map MessageDecl.bare) (by intro p; cases p <;> rfl), getD_map_nil,
    getD_map_nil]
  rfl

end Definition

end DialectBindings
