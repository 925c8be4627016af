import DialectBindings.Proofs.AlikeContents
import DialectBindings.Proofs.Parts

/-!
# Records of attributes and texts

Where no value is an element that may be repeated or marked as absent, what is read does not
depend on the bindings behind end tags, nor on where the reader stands, nor on an attribute that
the record does not know.
-/

set_option autoImplicit false

namespace DialectBindings.Markup
open Text Results

/-- Values that look the same to a reader that asks for no bindings. -/
inductive Source.Same : Source → Source → Prop
  | raw (value : List Char) : Same (.attribute value) (.attribute value)
  | text (value : List Char) : Same (.text value) (.text value)
  | element {tag tag' : Tag} {inner inner' : Content} (name : tag'.name = tag.name)
    (inside : inner.erase = inner'.erase) : Same (.element tag inner) (.element tag' inner')

theorem checkWhole_erase (name : List Char) (c : Content) :
    c.erase.checkWhole name = c.checkWhole name := by
  induction c with
  | text value rest ih => exact ih
  | element tag inner rest ihi ihr =>
    rw [Content.erase, Content.checkWhole, Content.checkWhole, ihi, ihr]
  | closed next => rfl
  | ended => rfl
  | failed fault => rfl

theorem passOver_erase (tag : Tag) (c : Content) : passOver tag c.erase = passOver tag c := by
  have hw := checkWhole_erase tag.name c
  cases c with
  | element first inner rest =>
    show (first.check >>= fun _ => (Content.element first inner rest).erase.checkWhole tag.name) = _
    rw [hw]
    rfl
  | text value rest => exact hw
  | closed next => rfl
  | ended => rfl
  | failed fault => rfl

theorem plainText_erase (tag : Tag) (c : Content) : plainText tag c.erase = plainText tag c := by
  cases c with
  | text value rest =>
    cases value with
    | error fault => rfl
    | ok s => cases rest <;> rfl
  | element first inner rest => rfl
  | closed next => rfl
  | ended => rfl
  | failed fault => rfl

namespace Source.Same

theorem readPresence {s s' : Source} (h : s.Same s') : s'.readPresence = s.readPresence := by
  cases h with
  | raw value => rfl
  | text value => rfl
  | @element tag tag' inner inner' name inside =>
    show passOver tag' inner' = passOver tag inner
    rw [← passOver_erase tag', ← inside, passOver_erase]
    unfold passOver
    rw [name]

theorem chars {s s' : Source} (h : s.Same s') : s'.chars = s.chars := by
  cases h with
  | raw value => rfl
  | text value => rfl
  | @element tag tag' inner inner' name inside =>
    show plainText tag' inner' = plainText tag inner
    rw [← plainText_erase tag', ← inside, plainText_erase]
    unfold plainText
    rw [name]

theorem readText {s s' : Source} (h : s.Same s') : s'.readText = s.readText := by
  rw [Source.readText, Source.readText, h.chars]

theorem readBool {s s' : Source} (h : s.Same s') : s'.readBool = s.readBool := by
  rw [Source.readBool, Source.readBool, h.chars]

theorem digitChars {s s' : Source} (h : s.Same s') : s'.digitChars = s.digitChars := by
  cases h with
  | raw value => rfl
  | text value => rfl
  | element name inside => exact (Source.Same.element name inside).chars

theorem readNumber {α : Type} {s s' : Source} (h : s.Same s') (read : List Char → Option α)
    (expected : Expected) : s'.readNumber read expected = s.readNumber read expected := by
  rw [Source.readNumber, Source.readNumber, h.digitChars, h.chars]

theorem readWord {s s' : Source} (h : s.Same s') : s'.readWord = s.readWord := h.readNumber ..

theorem readByte {s s' : Source} (h : s.Same s') : s'.readByte = s.readByte := h.readNumber ..

end Source.Same

namespace Schema
variable {α : Type}

/-- No value of the record is repeated or read in more than one way. -/
structure Flat (schema : Schema α) : Prop where
  body : schema.body = none
  single : ∀ k slot, schema.slot k = some slot → slot.repeated = false
  read : ∀ k slot, schema.slot k = some slot → ∀ place place' s s', s.Same s' →
    slot.read place' s' = slot.read place s

/-- Whether the values in attributes are read in one way only. -/
def Steady (schema : Schema α) : Prop :=
  ∀ k slot, schema.slot k = some slot → ∀ place place' raw,
    slot.read place' (.attribute raw) = slot.read place (.attribute raw)

variable {schema : Schema α}

theorem Flat.steady (h : schema.Flat) : schema.Steady :=
  fun k slot hs place place' raw => h.read k slot hs place place' _ _ (.raw raw)

theorem attributes_place (h : schema.Steady) (place place' : Place) (seen : List String)
    (as : List (Except Fault Attribute)) :
    schema.attributes place' seen as = schema.attributes place seen as := by
  induction as generalizing seen with
  | nil => rfl
  | cons a as ih =>
    cases a with
    | error fault => rfl
    | ok a =>
      rw [attributes, attributes, ok_bind, ok_bind]
      cases hs : schema.slot a.key with
      | none => exact ih seen
      | some slot =>
        have hf : fill place' seen a.key slot (.attribute a.value) =
            fill place seen a.key slot (.attribute a.value) := by
          rw [fill, fill, h _ _ hs]
        simp only [hf, ih]

theorem attributes_skip (place : Place) (seen : List String) (as bs : List (Except Fault Attribute))
    {a : Attribute} (ha : schema.slot a.key = none) :
    schema.attributes place seen (as ++ .ok a :: bs) = schema.attributes place seen (as ++ bs) := by
  induction as generalizing seen with
  | nil =>
    rw [List.nil_append, attributes, ok_bind, ha]
    rfl
  | cons b as ih =>
    cases b with
    | error fault => rfl
    | ok b =>
      rw [List.cons_append, List.cons_append, attributes, attributes, ok_bind, ok_bind]
      cases hs : schema.slot b.key with
      | none => exact ih seen
      | some slot => simp only [ih]

theorem first?_erase {name : List Char} {c c' rest : Content} {s : Source}
    (h : c.erase = c'.erase) (hc : c.first? name = .ok (some (s, rest))) :
    ∃ s' rest', c'.first? name = .ok (some (s', rest')) ∧ s.Same s' ∧ rest.erase = rest'.erase := by
  cases c with
  | closed next => cases hc
  | ended => cases hc
  | failed fault => cases hc
  | text value r =>
    cases c' with
    | text value' r' =>
      simp only [Content.erase, Content.text.injEq] at h
      obtain ⟨rfl, h⟩ := h
      cases value with
      | error fault => cases hc
      | ok v =>
        cases hc
        exact ⟨_, _, rfl, .text v, h⟩
    | _ => cases h
  | element tag inner r =>
    cases c' with
    | element tag' inner' r' =>
      simp only [Content.erase, Content.element.injEq] at h
      obtain ⟨rfl, hi, h⟩ := h
      rw [Content.first?] at hc
      obtain ⟨u, hu, hc⟩ := bind_eq_ok.1 hc
      cases hc
      refine ⟨_, _, ?_, .element rfl hi, h⟩
      rw [Content.first?, hu]
      rfl
    | _ => cases h

theorem Flat.find (h : schema.Flat) {s s' : Source} (hs : s.Same s') :
    schema.find s' = schema.find s ∧ (schema.find s = none ∨
      ∃ key slot, schema.find s = some (key, slot, none) ∧ schema.slot key = some slot) := by
  cases hs with
  | raw value => exact ⟨rfl, .inl rfl⟩
  | text value =>
    refine ⟨rfl, ?_⟩
    simp only [Schema.find, h.body]
    split
    · exact .inl rfl
    · cases ht : schema.slot textKey with
      | none => exact .inl rfl
      | some slot => exact .inr ⟨_, _, rfl, ht⟩
  | @element tag tag' inner inner' name inside =>
    simp only [Schema.find, h.body, key_eq name]
    cases hk : schema.slot tag.key with
    | none => exact ⟨rfl, .inl rfl⟩
    | some slot =>
      simp only [h.single _ _ hk]
      exact ⟨rfl, .inr ⟨_, _, rfl, hk⟩⟩

theorem Flat.children (h : schema.Flat) {place place' : Place}
    (hn : place'.parent.name = place.parent.name) {seen : List String} {c c' : Content}
    (hc : c.erase = c'.erase) {vs : List α} (hv : schema.children place seen c = .ok vs) :
    schema.children place' seen c' = .ok vs := by
  induction hw : c.width using Nat.strongRecOn generalizing c c' seen vs with
  | ind n ih =>
    subst hw
    cases hf : c.first? place.parent.name with
    | error fault =>
      rw [Schema.children] at hv
      split at hv <;> simp_all
    | ok first =>
      cases first with
      | none =>
        cases c with
        | closed next =>
          cases c' with
          | closed next' =>
            rw [children_closed] at hv ⊢
            exact hv
          | _ => cases hc
        | text value rest => cases value <;> cases hf
        | element tag inner rest =>
          rw [Content.first?] at hf
          obtain ⟨u, _, hf⟩ := bind_eq_ok.1 hf
          cases hf
        | _ => cases hf
      | some p =>
        obtain ⟨s, rest⟩ := p
        obtain ⟨s', rest', hf', hs, hrest⟩ := first?_erase hc hf
        have hless := Content.first?_width hf
        rw [← hn] at hf'
        rw [children_first hf] at hv
        rw [children_first hf', (h.find hs).1]
        rcases (h.find hs).2 with hnone | ⟨key, slot, hsome, hslot⟩
        · rw [hnone] at hv ⊢
          obtain ⟨u, hu, hv⟩ := bind_eq_ok.1 hv
          show (s'.readPresence >>= fun _ => schema.children place' seen rest') = _
          rw [hs.readPresence, hu, ok_bind]
          exact ih rest.width hless hrest hv rfl
        · rw [hsome] at hv ⊢
          obtain ⟨v, hfill, hv⟩ := bind_eq_ok.1 hv
          obtain ⟨vs', hvs, he⟩ := bind_eq_ok.1 hv
          cases he
          obtain ⟨hseen, hread⟩ := fill_eq_ok.1 hfill
          rw [← h.read _ _ hslot place place' s s' hs] at hread
          show (fill place' seen key slot s' >>= fun value =>
            schema.children place' (key :: seen) rest' >>= fun values => .ok (value :: values)) = _
          rw [fill_eq_ok.2 ⟨hseen, hread⟩, ok_bind, ih rest.width hless hrest hvs rfl, ok_bind]

end Schema

end DialectBindings.Markup

namespace DialectBindings.Definition
open Markup Results

def Fits {α : Type} (ρ : Role) (schema : Schema α) : Prop :=
  ∀ k, (schema.slot k).isSome = ρ.knows k

theorem Fits.unknown {α : Type} {ρ : Role} {schema : Schema α} (h : Fits ρ schema) (k : String)
    (hk : ρ.knows k = false) : schema.slot k = none := by
  rw [← h] at hk
  simpa using hk

theorem attributes_widened {α : Type} {ρ : Role} {schema : Schema α}
    (hρ : ∀ k, ρ.knows k = false → schema.slot k = none)
    (hs : schema.Steady) {as bs : List (Except Markup.Fault Attribute)} (h : Widened ρ as bs)
    (place place' : Place) :
    schema.attributes place' [] bs = schema.attributes place [] as := by
  rw [Schema.attributes_place hs place place']
  cases h with
  | same as => rfl
  | more as bs a plain unknown =>
    exact Schema.attributes_skip _ _ _ _ (hρ _ unknown)

theorem read_flat {α β : Type} {ρ : Role} {schema : Schema α} (hρ : Fits ρ schema)
    (hf : schema.Flat) {build : List α → Except Markup.Fault β} {place place' : Place}
    {tag tag' : Tag} {inner inner' : Content} (tags : Retagged ρ tag tag')
    (inside : inner.erase = inner'.erase) {b : β}
    (h : schema.read build place (.element tag inner) = .ok b) :
    schema.read build place' (.element tag' inner') = .ok b := by
  obtain ⟨seen, found, given, hat, hgiven, hb⟩ := Schema.read_ok h
  have hat' : schema.attributes ⟨tag', place'.ahead⟩ [] tag'.attributes = .ok (seen, found) := by
    rw [attributes_widened hρ.unknown hf.steady tags.attributes ⟨tag, place.ahead⟩, hat]
  have hgiven' : schema.children ⟨tag', place'.ahead⟩ seen inner' = .ok given :=
    hf.children tags.name inside hgiven
  exact (Schema.read_eq hat' hgiven').trans hb

theorem param_flat : Schema.Flat ⟨ParamPart.slot, none⟩ where
  body := rfl
  single := by
    intro k slot hs
    simp only [ParamPart.slot] at hs
    split at hs <;> cases hs <;> rfl
  read := by
    intro k slot hs place place' s s' same
    simp only [ParamPart.slot] at hs
    split at hs <;> cases hs <;>
      simp only [single, same.readText, same.readBool, same.readByte]

theorem deprecation_flat : Schema.Flat ⟨DeprecationPart.slot, none⟩ where
  body := rfl
  single := by
    intro k slot hs
    simp only [DeprecationPart.slot] at hs
    split at hs <;> cases hs <;> rfl
  read := by
    intro k slot hs place place' s s' same
    simp only [DeprecationPart.slot] at hs
    split at hs <;> cases hs <;> simp only [single, same.readText]

theorem field_flat : Schema.Flat ⟨FieldPart.slot, none⟩ where
  body := rfl
  single := by
    intro k slot hs
    simp only [FieldPart.slot] at hs
    split at hs <;> cases hs <;> rfl
  read := by
    intro k slot hs place place' s s' same
    simp only [FieldPart.slot] at hs
    split at hs <;> cases hs <;> simp only [single, same.readText]

end DialectBindings.Definition
