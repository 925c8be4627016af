import DialectBindings.Proofs.Conversion
import DialectBindings.Proofs.Payload
import Mathlib.Data.List.Induction

/-!
# Extension fields

A checked message has its fields as the document has them, and those behind the marker are its
extension fields. Items that are put behind the marker later add extension fields behind all others
and nothing else to the wire: what was there keeps its place, and the checksum and the length of the
payload stay.
-/

set_option autoImplicit false

namespace DialectBindings

namespace Message
variable {m m' : Message} {added : List Field}

theorem baseFields_extended (h : m'.fields = m.fields ++ added)
    (ha : ∀ f ∈ added, f.isExtension = true) : m'.baseFields = m.baseFields := by
  have hnone : added.filter (!·.isExtension) = [] :=
    List.filter_eq_nil_iff.2 fun f hf => by simp [ha f hf]
  rw [baseFields, h, List.filter_append, hnone, List.append_nil, baseFields]

theorem wireFields_extended (h : m'.fields = m.fields ++ added)
    (ha : ∀ f ∈ added, f.isExtension = true) : m'.wireFields = m.wireFields ++ added := by
  have hall : added.filter (·.isExtension) = added := List.filter_eq_self.2 ha
  rw [wireFields, wireFields, sortedFields, sortedFields, baseFields_extended h ha,
    extensionFields, extensionFields, h, List.filter_append, hall, List.append_assoc]

theorem payloadLength_extended (h : m'.fields = m.fields ++ added)
    (ha : ∀ f ∈ added, f.isExtension = true) : m'.payloadLength = m.payloadLength := by
  rw [payloadLength, payloadLength, baseFields_extended h ha]

theorem crcExtra_extended (hn : m'.name = m.name) (h : m'.fields = m.fields ++ added)
    (ha : ∀ f ∈ added, f.isExtension = true) : m'.crcExtra = m.crcExtra := by
  rw [crcExtra, crcExtra, signature, signature, sortedFields, sortedFields,
    baseFields_extended h ha, hn]

end Message

namespace Bindings

theorem withOffsets_prefix (offset : Nat) (fields added : List Field) :
    withOffsets offset fields <+: withOffsets offset (fields ++ added) := by
  rw [withOffsets_append]
  exact List.prefix_append _ _

end Bindings

namespace Definition
open Results

structure FieldDecl.Declares (f : FieldDecl) (field : Field) : Prop where
  name : field.name = f.name
  type : readType f.type = .ok field.type
  enumName : field.enumName = f.enumName
  units : field.units = f.units
  description : field.description = f.description

def fieldDecls (items : List MessageItem) : List FieldDecl :=
  items.filterMap fun
    | .field f => some f
    | _ => none

/-- Fields as items declare them: each in its place, and an extension field just when the marker
stands somewhere before it. -/
structure FieldsOf (items : List MessageItem) (fields : List Field) : Prop where
  in_order : List.Forall₂ FieldDecl.Declares (fieldDecls items) fields
  marked : ∀ before f after, items = before ++ .field f :: after →
    ∃ field, fields[(fieldDecls before).length]? = some field ∧ f.Declares field ∧
      (field.isExtension = true ↔ .extensions ∈ before)

theorem FieldsOf.nil : FieldsOf [] [] where
  in_order := .nil
  marked before f after h := by simp at h

theorem concat_split {items before after : List MessageItem} {item found : MessageItem}
    (h : items ++ [item] = before ++ found :: after) :
    (∃ left, items = before ++ found :: left) ∨ before = items ∧ found = item := by
  obtain rfl | ⟨left, last, rfl⟩ := List.eq_nil_or_concat after
  · obtain ⟨hb, hi⟩ := List.append_inj' h rfl
    exact .inr ⟨hb.symm, (List.cons.inj hi).1.symm⟩
  · rw [List.concat_eq_append, ← List.cons_append, ← List.append_assoc] at h
    exact .inl ⟨left, (List.append_inj' h rfl).1⟩

theorem FieldsOf.concat_field {items : List MessageItem} {fields : List Field} {f : FieldDecl}
    {field : Field} (h : FieldsOf items fields) (hf : f.Declares field)
    (he : field.isExtension = true ↔ .extensions ∈ items) :
    FieldsOf (items ++ [.field f]) (fields ++ [field]) where
  in_order := by
    rw [fieldDecls, List.filterMap_append]
    exact List.rel_append h.in_order (.cons hf .nil)
  marked before g after hs := by
    have hlength := h.in_order.length_eq
    rcases concat_split hs with ⟨left, rfl⟩ | ⟨rfl, hg⟩
    · obtain ⟨found, hfound, hrest⟩ := h.marked before g left rfl
      have hlt := (List.getElem?_eq_some_iff.1 hfound).1
      exact ⟨found, by rw [List.getElem?_append_left hlt, hfound], hrest⟩
    · cases hg
      exact ⟨field, by rw [hlength, List.getElem?_concat_length], hf, he⟩

theorem FieldsOf.concat_other {items : List MessageItem} {fields : List Field}
    {item : MessageItem} (h : FieldsOf items fields) (hn : ∀ f, item ≠ .field f) :
    FieldsOf (items ++ [item]) fields where
  in_order := by
    have hnone : fieldDecls [item] = [] := by
      cases item with
      | field f => exact absurd rfl (hn f)
      | description | extensions | wip | deprecated | other => rfl
    rw [fieldDecls, List.filterMap_append, ← fieldDecls, ← fieldDecls, hnone, List.append_nil]
    exact h.in_order
  marked before g after hs := by
    rcases concat_split hs with ⟨left, hs⟩ | ⟨-, hg⟩
    · exact h.marked before g left hs
    · exact absurd hg.symm (hn g)

theorem checkField_ok {message : String} {isExtension : Bool} {f : FieldDecl} {field : Field}
    (h : checkField message isExtension f = .ok field) :
    f.Declares field ∧ field.isExtension = isExtension := by
  rw [checkField] at h
  split at h <;> cases h
  rename_i type ht
  exact ⟨⟨rfl, ht, rfl, rfl, rfl⟩, rfl⟩

theorem addItem_step {state state' : Message × Bool} {item : MessageItem}
    (h : addItem state item = .ok state') :
    (state'.2 = true ↔ state.2 = true ∨ item = .extensions) ∧
      ((∃ f field, item = .field f ∧ f.Declares field ∧ field.isExtension = state.2 ∧
          state'.1.fields = state.1.fields ++ [field]) ∨
        (∀ f, item ≠ .field f) ∧ state'.1.fields = state.1.fields) := by
  cases item with
  | field f =>
    obtain ⟨field, hf, h⟩ := bind_eq_ok.1 h
    cases h
    obtain ⟨hdeclares, hext⟩ := checkField_ok hf
    exact ⟨by simp, .inl ⟨f, field, rfl, hdeclares, hext, rfl⟩⟩
  | description | extensions | wip | deprecated | other =>
    cases h
    exact ⟨by simp, .inr ⟨by simp, rfl⟩⟩

theorem foldlM_concat_ok {state last : Message × Bool} {items : List MessageItem}
    {item : MessageItem} :
    (items ++ [item]).foldlM addItem state = .ok last ↔
      ∃ next, items.foldlM addItem state = .ok next ∧ addItem next item = .ok last := by
  rw [List.foldlM_append, bind_eq_ok]
  simp [List.foldlM_cons, List.foldlM_nil]

theorem foldlM_marker {m : Message} {items : List MessageItem} {state : Message × Bool}
    (h : items.foldlM addItem (m, false) = .ok state) :
    state.2 = true ↔ .extensions ∈ items := by
  induction items using List.reverseRecOn generalizing state with
  | nil =>
    cases h
    simp
  | append_singleton items item ih =>
    obtain ⟨next, hn, hi⟩ := foldlM_concat_ok.1 h
    rw [(addItem_step hi).1, ih hn, List.mem_append, List.mem_singleton, @eq_comm _ item]

theorem foldlM_fieldsOf {m : Message} {items : List MessageItem} {state : Message × Bool}
    (hm : m.fields = []) (h : items.foldlM addItem (m, false) = .ok state) :
    FieldsOf items state.1.fields := by
  induction items using List.reverseRecOn generalizing state with
  | nil =>
    cases h
    rw [hm]
    exact .nil
  | append_singleton items item ih =>
    obtain ⟨next, hn, hi⟩ := foldlM_concat_ok.1 h
    rcases (addItem_step hi).2 with ⟨f, field, rfl, hf, he, hfields⟩ | ⟨hother, hfields⟩
    · rw [hfields]
      exact (ih hn).concat_field hf (by rw [he, foldlM_marker hn])
    · rw [hfields]
      exact (ih hn).concat_other hother

/-- Items that have all of their fields behind the marker, when they are put behind others. -/
def AllBehindMarker (items more : List MessageItem) : Prop :=
  ∀ before f after, more = before ++ .field f :: after → .extensions ∈ items ++ before

/-- Items that are put behind the marker add extension fields and no others. -/
theorem foldlM_extended {m : Message} {items more : List MessageItem} {state : Message × Bool}
    (h : items.foldlM addItem (m, false) = .ok state) (hb : AllBehindMarker items more)
    (hv : ∀ f, .field f ∈ more → f.IsValid) :
    ∃ state' added, (items ++ more).foldlM addItem (m, false) = .ok state' ∧
      state'.1.fields = state.1.fields ++ added ∧ ∀ f ∈ added, f.isExtension = true := by
  -- By the last of the items that are added: what stands before it has the marker if it is a field.
  induction more using List.reverseRecOn with
  | nil => exact ⟨state, [], by rwa [List.append_nil], by rw [List.append_nil], nofun⟩
  | append_singleton more item ih =>
    obtain ⟨next, added, hn, hfields, hadded⟩ :=
      ih (fun before f after hs => hb before f (after ++ [item]) (by simp [hs]))
        (fun f hf => hv f (List.mem_append_left _ hf))
    rw [← List.append_assoc]
    rcases addItem_cases next item with ⟨-, last, hi⟩ | ⟨f, kind, rfl, ht, -⟩
    · refine ⟨last, ?_⟩
      rcases (addItem_step hi).2 with ⟨f, field, rfl, -, he, hlast⟩ | ⟨-, hlast⟩
      · have hext : field.isExtension = true := by
          rw [he, foldlM_marker hn]
          exact hb more f [] rfl
        refine ⟨added ++ [field], foldlM_concat_ok.2 ⟨next, hn, hi⟩, ?_, ?_⟩
        · rw [hlast, hfields, List.append_assoc]
        · simpa [or_imp, forall_and] using ⟨hadded, hext⟩
      · exact ⟨added, foldlM_concat_ok.2 ⟨next, hn, hi⟩, hlast.trans hfields, hadded⟩
    · exact absurd (hv f (by simp)) (FieldDecl.not_isValid ht)

/-- A checked message has the fields of its items, and items with valid types that are put behind
the marker leave what it had on the wire as it was. -/
theorem checkMessage_extended {d : MessageDecl} {m : Message} (h : checkMessage d = .ok m) :
    FieldsOf d.items m.fields ∧
    ∀ more, AllBehindMarker d.items more → (∀ f, .field f ∈ more → f.IsValid) →
      ∃ m', checkMessage { d with items := d.items ++ more } = .ok m' ∧
        m'.crcExtra = m.crcExtra ∧ m'.payloadLength = m.payloadLength ∧
        m.wireFields <+: m'.wireFields ∧
        Bindings.withOffsets 0 m.wireFields <+: Bindings.withOffsets 0 m'.wireFields ∧
        ∀ dialect dialect', (Bindings.messagePart dialect m).rows <+:
          (Bindings.messagePart dialect' m').rows := by
  obtain ⟨state, hs, hm⟩ := bind_eq_ok.1 h
  cases hm
  refine ⟨foldlM_fieldsOf rfl hs, fun more hb hv => ?_⟩
  obtain ⟨state', added, hs', hfields, hadded⟩ := foldlM_extended hs hb hv
  have hname : state'.1.name = state.1.name :=
    (foldlM_addItem_ok hs').2.1.trans (foldlM_addItem_ok hs).2.1.symm
  have hwire := Message.wireFields_extended hfields hadded
  have hoffsets := Bindings.withOffsets_prefix 0 state.1.wireFields added
  rw [← hwire] at hoffsets
  refine ⟨state'.1, ?_, Message.crcExtra_extended hname hfields hadded,
    Message.payloadLength_extended hfields hadded, by rw [hwire]; exact List.prefix_append _ _,
    hoffsets, fun _ _ => hoffsets.map _⟩
  rw [checkMessage, hs', ok_bind]
  rfl

theorem checkMessage_extended_wide :
    let octet : FieldDecl := ⟨"uint8_t", "a", none, none, ""⟩
    let wide : FieldDecl := ⟨"uint64_t[2]", "b", none, none, ""⟩
    let d : MessageDecl := ⟨1, "M", [.field octet, .wip]⟩
    let more : List MessageItem := [.extensions, .description "text", .field wide, .extensions]
    AllBehindMarker d.items more ∧ (∀ f, .field f ∈ more → f.IsValid) ∧
      ∃ m m', checkMessage d = .ok m ∧ checkMessage { d with items := d.items ++ more } = .ok m' ∧
        m'.crcExtra = m.crcExtra ∧ m'.payloadLength = m.payloadLength ∧
        m.wireFields <+: m'.wireFields := by
  intro octet wide d more
  have hb : AllBehindMarker d.items more := by
    intro before f after hs
    cases before with
    | nil => simp [more] at hs
    | cons item before =>
      obtain ⟨rfl, -⟩ := List.cons.inj hs
      simp
  have hv : ∀ f, .field f ∈ more → f.IsValid := by
    intro f hf
    obtain rfl : f = wide := by simpa [more] using hf
    exact ⟨⟨.uint64, some 2⟩, by decide +kernel⟩
  obtain ⟨m, hm⟩ := exists_ok (x := checkMessage d) (by decide +kernel)
  obtain ⟨m', hm', hcrc, hlength, hwire, -⟩ := (checkMessage_extended hm).2 more hb hv
  exact ⟨hb, hv, m, m', hm, hm', hcrc, hlength, hwire⟩

end Definition
end DialectBindings
