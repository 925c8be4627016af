import DialectBindings.Proofs.Parts
import DialectBindings.Proofs.Invariance
import DialectBindings.Proofs.Numerals
import DialectBindings.Proofs.Writing
import Mathlib.Data.List.ReduceOption

/-!
# Records read back

A record that is written as an element gives its parts: one for each attribute that has a value,
one for a text that is not empty, and one for each element inside.
-/

set_option autoImplicit false

namespace DialectBindings.Markup
open Text Results

/-- A text of printable ASCII characters without a blank at either end. -/
structure Plain (s : String) : Prop where
  printable : ∀ c ∈ s.toList, ' ' ≤ c ∧ c ≤ '~'
  starts : s.toList.head? ≠ some ' '
  ends : s.toList.getLast? ≠ some ' '

instance decidablePlain (s : String) : Decidable (Plain s) :=
  decidable_of_iff ((s.toList.all fun c => ' ' ≤ c ∧ c ≤ '~') = true ∧
    s.toList.head? ≠ some ' ' ∧ s.toList.getLast? ≠ some ' ')
    ⟨fun h => ⟨by simpa using h.1, h.2.1, h.2.2⟩, fun h => ⟨by simpa using h.1, h.2, h.3⟩⟩

theorem Plain.not_lineEnd {s : String} (h : Plain s) : ∀ c ∈ s.toList, isLineEnd c = false := by
  intro c hc
  obtain ⟨hle, hge⟩ := h.printable c hc
  simp only [isLineEnd, Bool.or_eq_false_iff, beq_eq_false_iff_ne]
  refine ⟨⟨?_, ?_⟩, ?_⟩ <;> rintro rfl <;> revert hle hge <;> decide

theorem Plain.not_blank {s : String} (h : Plain s) (hs : s ≠ "") :
    ¬ s.toList.all isSpace = true := by
  obtain ⟨hprintable, hstarts, _⟩ := h
  cases ht : s.toList with
  | nil => exact absurd (String.toList_eq_nil_iff.1 ht) hs
  | cons c t =>
    rw [ht] at hprintable hstarts
    obtain ⟨hle, _⟩ := hprintable c List.mem_cons_self
    have hspace : isSpace c = false := by
      simp only [isSpace, Bool.or_eq_false_iff, beq_eq_false_iff_ne]
      refine ⟨⟨⟨?_, ?_⟩, ?_⟩, ?_⟩ <;> rintro rfl <;> first | exact hstarts rfl | (revert hle; decide)
    simp [hspace]

/-! ## Values -/

section Leaf
variable (name : String) (as : List (String × Option String))

theorem chars_leaf (text : String) : (Element.leaf name as text).source.chars = .ok text.toList := by
  show (Source.element _ (textContent text.toList)).chars = _
  cases text.toList <;> rfl

theorem readText_leaf (text : String) : (Element.leaf name as text).source.readText = .ok text := by
  rw [Source.readText, chars_leaf]
  exact congrArg Except.ok String.ofList_toList

end Leaf

theorem readText_spelled (s : String) :
    (Source.attribute (spelled s.toList)).readText = .ok s := by
  rw [Source.readText, Source.chars, replaced_spelled]
  exact congrArg Except.ok String.ofList_toList

theorem readBool_spelled (b : Bool) :
    (Source.attribute (spelled (toString b).toList)).readBool = .ok b := by
  rw [Source.readBool, Source.chars, replaced_spelled]
  cases b <;> rfl

theorem spelled_toDigits (n : Nat) : spelled (Nat.toDigits 10 n) = Nat.toDigits 10 n := by
  have hall : ∀ c ∈ Nat.toDigits 10 n, spell c = [c] := by
    intro c hc
    have hdigit := Nat.isDigit_of_mem_toDigits (by decide) (by decide) hc
    cases hn : nameOf? c with
    | none => exact spell_of_none hn
    | some name =>
      unfold nameOf? at hn
      split at hn <;> first | cases hdigit | cases hn
  unfold spelled
  generalize Nat.toDigits 10 n = s at hall ⊢
  induction s with
  | nil => rfl
  | cons c s ih =>
    obtain ⟨hc, hs⟩ := List.forall_mem_cons.1 hall
    rw [List.flatMap_cons, hc, ih hs]
    rfl

theorem readNumber_ok {α : Type} {read : List Char → Option α} {expected : Expected} {s : Source}
    {n : Nat} {a : α} (hs : s.digitChars = .ok (Nat.toDigits 10 n))
    (hr : read (Nat.toDigits 10 n) = some a) : s.readNumber read expected = .ok a := by
  rw [Source.readNumber, hs, ok_bind, trimBy_toDigits, hr]

theorem readByte_spelled (n : UInt8) :
    (Source.attribute (spelled (toString n).toList)).readByte = .ok n := by
  rw [toList_byte, spelled_toDigits]
  exact readNumber_ok rfl (byte?_toDigits n)

theorem readWord_spelled (n : UInt32) :
    (Source.attribute (spelled (toString n).toList)).readWord = .ok n := by
  rw [toList_word, spelled_toDigits]
  exact readNumber_ok rfl (word?_toDigits n)

theorem readWord_leaf (name : String) (as : List (String × Option String)) (n : UInt32) :
    (Element.leaf name as (toString n)).source.readWord = .ok n := by
  have hchars := chars_leaf name as (toString n)
  rw [toList_word] at hchars
  exact readNumber_ok hchars (word?_toDigits n)

theorem Element.WellFormed.readPresence {e : Element} (h : e.WellFormed) :
    e.source.readPresence = .ok () := h.sound.passOver e.tag

theorem Element.WellFormed.readOptional {e parent : Element} (h : e.WellFormed)
    (hp : parent.WellFormed) {α : Type} (read : Source → Except Fault α) (ahead : Option Scope) :
    e.source.readOptional read ⟨parent.tag, ahead⟩ = (read e.source).map some := by
  have habsent : e.source.isAbsent ⟨parent.tag, ahead⟩ = false := by
    simp only [Source.isAbsent, h.present, hp.present, Bool.or_self]
  rw [Source.readOptional, habsent]
  rfl

end DialectBindings.Markup

namespace DialectBindings.Definition
open Markup Text Results

section Records
variable {α β : Type} {schema : Schema α} {keyOf : α → String} {place : Place}

/-! ## Attributes -/

def AttributeGives (schema : Schema α) (place : Place) (name value : String) (v : α) : Prop :=
  ∃ slot, schema.slot ("@" ++ name) = some slot ∧
    slot.read place (.attribute (spelled value.toList)) = .ok v

theorem single_given {name value : String} {part : β → α} {read : Source → Except Markup.Fault β}
    (hs : schema.slot ("@" ++ name) = some (single part read)) {b : β}
    (h : read (.attribute (spelled value.toList)) = .ok b) :
    AttributeGives schema place name value (part b) := by
  refine ⟨_, hs, ?_⟩
  show Except.map part _ = _
  rw [h]
  rfl

theorem text_given {name : String} {part : String → α}
    (hs : schema.slot ("@" ++ name) = some (single part Source.readText)) (value : String) :
    AttributeGives schema place name value (part value) :=
  single_given hs (readText_spelled value)

theorem option_given {name : String} {part : String → α}
    (hs : schema.slot ("@" ++ name) = some (single part Source.readText))
    (value : Option String) :
    Option.Rel (AttributeGives schema place name) value (value.map part) := by
  cases value with
  | none => exact .none
  | some value => exact .some (text_given hs value)

abbrev AttributesGive (schema : Schema α) (place : Place) (as : List (String × Option String))
    (vs : List (Option α)) : Prop :=
  List.Forall₂ (fun a v => Option.Rel (AttributeGives schema place a.1) a.2 v) as vs

theorem attribute_key {name : String} (h : Unprefixed name.toList) (value : List Char) :
    Attribute.key ⟨name.toList, value⟩ = "@" ++ name := by
  rw [Unprefixed.key h, ← String.toList_inj, String.toList_ofList, String.toList_append]
  rfl

theorem attributes_given {as : List (String × Option String)} {vs : List (Option α)}
    (h : AttributesGive schema place as vs) (hn : (as.map (·.1)).Nodup)
    (hu : ∀ a ∈ as, Unprefixed a.1.toList) {seen : List String}
    (hseen : ∀ a ∈ as, "@" ++ a.1 ∉ seen) :
    ∃ met, schema.attributes place seen ((writtenAttributes as).map .ok) =
        .ok (met, vs.reduceOption) ∧
      ∀ k ∈ met, k ∈ seen ∨ ∃ a ∈ as, k = "@" ++ a.1 := by
  induction h generalizing seen with
  | nil => exact ⟨seen, rfl, fun k hk => .inl hk⟩
  | @cons a v as vs ha _ ih =>
    obtain ⟨name, value?⟩ := a
    obtain ⟨hnot, hnodup⟩ := List.nodup_cons.1 hn
    obtain ⟨hname, hplain⟩ := List.forall_mem_cons.1 hu
    obtain ⟨hfresh, hrest⟩ := List.forall_mem_cons.1 hseen
    cases ha with
    | none =>
      obtain ⟨met, hmet, hkeys⟩ := ih hnodup hplain hrest
      refine ⟨met, hmet, ?_⟩
      intro k hk
      exact (hkeys k hk).imp_right fun ⟨b, hb, he⟩ => ⟨b, List.mem_cons_of_mem _ hb, he⟩
    | @some value v hgives =>
      obtain ⟨slot, hslot, hread⟩ := hgives
      have hnext : ∀ b ∈ as, "@" ++ b.1 ∉ ("@" ++ name) :: seen := by
        intro b hb hmem
        rcases List.mem_cons.1 hmem with he | hmem
        · apply hnot
          have hb' : b.1 = name := by simpa using he
          exact List.mem_map.2 ⟨b, hb, hb'⟩
        · exact hrest b hb hmem
      obtain ⟨met, hmet, hkeys⟩ := ih hnodup hplain hnext
      refine ⟨met, ?_, ?_⟩
      · have hcons : writtenAttributes ((name, some value) :: as) =
            ⟨name.toList, spelled value.toList⟩ :: writtenAttributes as := rfl
        rw [hcons, List.map_cons, Schema.attributes, ok_bind, attribute_key hname, hslot]
        show (Schema.fill place seen ("@" ++ name) slot _ >>= _) = _
        rw [Schema.fill_eq_ok.2 ⟨hfresh, hread⟩, ok_bind, hmet]
        rfl
      · intro k hk
        rcases hkeys k hk with hk | ⟨b, hb, he⟩
        · rcases List.mem_cons.1 hk with rfl | hk
          · exact .inr ⟨_, List.mem_cons_self, rfl⟩
          · exact .inl hk
        · exact .inr ⟨b, List.mem_cons_of_mem _ hb, he⟩

theorem tag_attributes_given {name : String} {as : List (String × Option String)}
    {vs : List (Option α)} (hn : TagNames name (as.map (·.1)))
    (h : AttributesGive schema place as vs) :
    ∃ met, schema.attributes place [] (writtenTag name as).attributes = .ok (met, vs.reduceOption) ∧
      ∀ k ∈ met, k.toList.head? = some '@' := by
  have hu : ∀ a ∈ as, Unprefixed a.1.toList := fun a ha =>
    (hn.keyed a.1 (List.mem_map_of_mem ha)).2
  have hnone : ∀ a ∈ as, "@" ++ a.1 ∉ ([] : List String) := nofun
  obtain ⟨met, hmet, hkeys⟩ := attributes_given h hn.nodup hu hnone
  rw [hn.tag_attributes]
  refine ⟨met, hmet, ?_⟩
  intro k hk
  obtain ⟨a, _, rfl⟩ := (hkeys k hk).resolve_left nofun
  rw [String.toList_append]
  rfl

/-! ## Texts -/

def noted (part : String → α) (s : String) : List α := if s = "" then [] else [part s]

@[simp] theorem mem_noted {part : String → α} {s : String} {v : α} :
    v ∈ noted part s ↔ s ≠ "" ∧ v = part s := by
  unfold noted
  split <;> simp_all

theorem read_leaf (hb : schema.body = none) {part : String → α}
    (hs : schema.slot textKey = some (single part Source.readText))
    {build : List α → Except Markup.Fault β} {name text : String}
    {as : List (String × Option String)} {found : List (Option α)}
    (h : (Element.leaf name as text).WellFormed) (hp : Plain text)
    (ha : ∀ place, AttributesGive schema place as found) :
    schema.read build place (Element.leaf name as text).source =
      build (found.reduceOption ++ noted part text) := by
  obtain ⟨met, hmet, hkeys⟩ := tag_attributes_given h.1 (ha ⟨writtenTag name as, place.ahead⟩)
  have hfresh : textKey ∉ met := fun hk => absurd (hkeys _ hk) (by decide)
  have hchildren : schema.children ⟨writtenTag name as, place.ahead⟩ met
      (textContent text.toList) = .ok (noted part text) := by
    unfold noted
    split
    · rename_i he
      rw [he]
      exact Schema.children_closed []
    · rename_i hne
      have hcontent : textContent text.toList = .text (.ok text.toList) (.closed []) := by
        cases ht : text.toList with
        | nil => exact absurd (String.toList_eq_nil_iff.1 ht) hne
        | cons c s => rfl
      have hfirst : (textContent text.toList).first? (writtenTag name as).name =
          .ok (some (.text text.toList, .closed [])) := by
        rw [hcontent]
        rfl
      have hfind : schema.find (.text text.toList) =
          some (textKey, single part Source.readText, none) := by
        simp only [Schema.find, if_neg (hp.not_blank hne), hb, hs]
        rfl
      have hread : (single part Source.readText).read ⟨writtenTag name as, place.ahead⟩
          (.text text.toList) = .ok (part text) :=
        congrArg (fun s => Except.ok (part s)) String.ofList_toList
      rw [Schema.children_first hfirst, hfind]
      show (Schema.fill _ met textKey _ _ >>= _) = _
      rw [Schema.fill_eq_ok.2 ⟨hfresh, hread⟩, ok_bind, Schema.children_closed]
      rfl
  exact Schema.read_eq hmet hchildren

/-! ## Elements -/

theorem forall₂_mapped {γ δ ε : Type} {R : δ → ε → Prop} {f : γ → δ} {g : γ → ε} {cs : List γ}
    (h : ∀ c ∈ cs, R (f c) (g c)) : List.Forall₂ R (cs.map f) (cs.map g) := by
  rw [List.forall₂_map_left_iff, List.forall₂_map_right_iff, List.forall₂_same]
  exact h

theorem forall₂_noted {δ ε : Type} {R : δ → ε → Prop} {f : String → δ} {g : String → ε}
    {s : String} (h : R (f s) (g s)) : List.Forall₂ R (noted f s) (noted g s) := by
  unfold noted
  split
  · exact .nil
  · exact .cons h .nil

theorem exists_of_forall₂ {γ δ : Type} {R : γ → δ → Prop} {cs : List γ} {ds : List δ}
    (h : List.Forall₂ R cs ds) : ∀ d ∈ ds, ∃ c, R c d := by
  induction h with
  | nil => nofun
  | cons hr _ ih => exact List.forall_mem_cons.2 ⟨⟨_, hr⟩, ih⟩

/-- An element gives a value of the record wherever the reader stands. -/
def ChildGives (schema : Schema α) (parent : Tag) (e : Element) (v : α) : Prop :=
  ∃ slot, schema.slot e.tag.key = some slot ∧
    ∀ ahead, slot.read ⟨parent, ahead⟩ e.source = .ok v

section Child
variable {parent e : Element} {name : String} {repeated : Bool}

theorem child_given {part : β → α} {read : Place → Source → Except Markup.Fault β} {b : β}
    (hkey : e.tag.key = name)
    (hs : schema.slot name = some ⟨fun place s => (read place s).map part, repeated⟩)
    (hr : ∀ place, read place e.source = .ok b) :
    ChildGives schema parent.tag e (part b) := by
  refine ⟨_, by rw [hkey, hs], ?_⟩
  intro ahead
  show Except.map part _ = _
  rw [hr]
  rfl

theorem optional_given {part : Option β → α} {read : Place → Source → Except Markup.Fault β}
    {b : β} (hp : parent.WellFormed) (hw : e.WellFormed) (hkey : e.tag.key = name)
    (hs : schema.slot name =
      some ⟨fun place s => (s.readOptional (read place) place).map part, repeated⟩)
    (hr : ∀ place, read place e.source = .ok b) :
    ChildGives schema parent.tag e (part (some b)) := by
  refine ⟨_, by rw [hkey, hs], ?_⟩
  intro ahead
  show Except.map part (e.source.readOptional _ _) = _
  rw [hw.readOptional hp, hr]
  rfl

end Child

/-- Values of elements: one at most under each key that may not be repeated, and none under a key of
attributes. -/
structure Apart (schema : Schema α) (keyOf : α → String) (vs : List α) : Prop where
  once : ∀ k slot, schema.slot k = some slot → slot.repeated = false →
    (vs.filter (keyOf · == k)).length ≤ 1
  fresh : ∀ v ∈ vs, (keyOf v).toList.head? ≠ some '@'

section Keyed
variable (hk : schema.Keyed keyOf)
include hk

theorem under_given {parent : Tag} {es : List Element} {vs : List α}
    (h : List.Forall₂ (ChildGives schema parent) es vs) {k : String} {slot : Slot α}
    (hs : schema.slot k = some slot) :
    List.Forall₂ (fun e v => ∀ ahead, slot.read ⟨parent, ahead⟩ e.source = .ok v)
      (es.filter (·.tag.key == k)) (vs.filter (keyOf · == k)) := by
  induction h with
  | nil => exact .nil
  | @cons e v es vs hv _ ih =>
    obtain ⟨slot', hslot, hread⟩ := hv
    have hkey : e.tag.key = keyOf v := (hk.read hslot (hread none)).symm
    rw [List.filter_cons, List.filter_cons, ← hkey]
    split
    · rename_i he
      rw [beq_iff_eq.1 he, hs] at hslot
      cases hslot
      exact .cons hread ih
    · exact ih

theorem regular_given {parent : Tag} {seen : List String} {es : List Element} {vs : List α}
    (hw : ∀ e ∈ es, e.WellFormed) (h : List.Forall₂ (ChildGives schema parent) es vs)
    (once : ∀ k slot, schema.slot k = some slot → slot.repeated = false →
      (vs.filter (keyOf · == k)).length ≤ 1) (fresh : ∀ v ∈ vs, keyOf v ∉ seen) :
    schema.Regular seen (es.map fun e => (e.tag, e.inner)) := by
  intro k slot hs first more hu
  have hunder := under_given hk h hs
  rw [under, List.filter_map] at hu
  obtain ⟨e, es', he, rfl, rfl⟩ := List.map_eq_cons_iff.1 hu
  have hfilter : es.filter (·.tag.key == k) = e :: es' := he
  rw [hfilter] at hunder
  obtain ⟨v, vs', _, hmore, hvs⟩ := List.forall₂_cons_left_iff.1 hunder
  have hmem : v ∈ vs.filter (keyOf · == k) := by
    rw [hvs]
    exact List.mem_cons_self
  obtain ⟨hv, hkey⟩ := List.mem_filter.1 hmem
  have hkey : keyOf v = k := beq_iff_eq.1 hkey
  refine ⟨hkey ▸ fresh v hv, ?_⟩
  cases hr : slot.repeated with
  | false =>
    have hlength := once k slot hs hr
    rw [hvs, List.length_cons, ← hmore.length_eq] at hlength
    left
    rw [List.map_eq_nil_iff, ← List.length_eq_zero_iff]
    omega
  | true =>
    have hname : ∀ e' ∈ e :: es', e'.tag.name = k.toList := by
      intro e' he'
      rw [← hfilter] at he'
      obtain ⟨he', hkey'⟩ := List.mem_filter.1 he'
      rw [← beq_iff_eq.1 hkey']
      exact (hw e' he').tag_name
    obtain ⟨hfirst, hrest⟩ := List.forall_mem_cons.1 hname
    refine .inr ⟨rfl, ?_⟩
    rintro p hp
    obtain ⟨e', he', rfl⟩ := List.mem_map.1 hp
    exact (hrest e' he').trans hfirst.symm

theorem children_given {seen : List String} {es : List Element} {vs : List α}
    (hw : Element.AllWellFormed es) (h : List.Forall₂ (ChildGives schema place.parent) es vs)
    (once : ∀ k slot, schema.slot k = some slot → slot.repeated = false →
      (vs.filter (keyOf · == k)).length ≤ 1) (fresh : ∀ v ∈ vs, keyOf v ∉ seen) :
    ∃ ws, schema.children place seen (Element.siblings es (.closed [])) = .ok ws ∧
      SameByKey keyOf ws vs := by
  have hsound : (Element.siblings es (.closed [])).Sound := Element.sound_siblings hw trivial
  have hes : (Element.siblings es (.closed [])).elements = es.map fun e => (e.tag, e.inner) := by
    rw [Element.elements_siblings]
    exact List.append_nil _
  have hreg := regular_given hk (Element.allWellFormed_iff.1 hw) h once fresh
  rw [← hes] at hreg
  have hread : ∀ p ∈ (Element.siblings es (.closed [])).elements, ∀ slot,
      schema.slot p.1.key = some slot → ∀ ahead,
      ∃ v, slot.read ⟨place.parent, ahead⟩ (.element p.1 p.2) = .ok v := by
    intro p hp slot hslot ahead
    rw [hes] at hp
    obtain ⟨e, he, rfl⟩ := List.mem_map.1 hp
    obtain ⟨v, slot', hslot', hv⟩ := exists_of_forall₂ h.flip e he
    rw [hslot] at hslot'
    cases hslot'
    exact ⟨v, hv ahead⟩
  obtain ⟨ws, hws⟩ := Schema.children_succeeds hk hsound hreg hread
  refine ⟨ws, hws, ?_⟩
  obtain ⟨_, hgives⟩ := Schema.children_gives hk hsound hws
  intro k
  cases hslot : schema.slot k with
  | none =>
    rw [Gives.unknown hgives hslot, eq_comm, List.filter_eq_nil_iff]
    intro v hv hkey
    obtain ⟨e, slot, hs, hv⟩ := exists_of_forall₂ h v hv
    rw [← beq_iff_eq.1 hkey, hk.read hs (hv none), hs] at hslot
    cases hslot
  | some slot =>
    have hgiven := hgives.read k slot hslot
    rw [hes, under, List.filter_map, List.forall₂_map_left_iff] at hgiven
    have hsame : List.Forall₂ Eq (ws.filter (keyOf · == k)) (vs.filter (keyOf · == k)) := by
      have hself : List.Forall₂ Eq (es.filter (·.tag.key == k)) (es.filter (·.tag.key == k)) :=
        List.forall₂_same.2 fun _ _ => rfl
      refine forall₂_square hself hgiven (under_given hk h hslot) ?_
      rintro e _ w v rfl ⟨ahead, hw⟩ hv
      rw [hv] at hw
      exact (Except.ok.inj hw).symm
    rwa [List.forall₂_eq_eq_eq] at hsame

theorem read_node {build : List α → Except Markup.Fault β}
    (hbuild : ∀ {vs ws : List α}, SameByKey keyOf vs ws → build vs = build ws)
    {name : String} {as : List (String × Option String)} {es : List Element}
    {found : List (Option α)} {given : List α} (h : (Element.node name as es).WellFormed)
    (ha : ∀ place, AttributesGive schema place as found)
    (hc : List.Forall₂ (ChildGives schema (Element.node name as es).tag) es given)
    (apart : Apart schema keyOf given) :
    schema.read build place (Element.node name as es).source =
      build (found.reduceOption ++ given) := by
  obtain ⟨met, hmet, hkeys⟩ := tag_attributes_given h.1 (ha ⟨writtenTag name as, place.ahead⟩)
  have hfresh : ∀ v ∈ given, keyOf v ∉ met := by
    intro v hv hk
    exact apart.fresh v hv (hkeys _ hk)
  have hchildren : ∃ ws, schema.children ⟨writtenTag name as, place.ahead⟩ met
      (Element.siblings es (.closed [])) = .ok ws ∧ SameByKey keyOf ws given :=
    children_given hk h.2 hc apart.once hfresh
  obtain ⟨ws, hws, hsame⟩ := hchildren
  rw [← hbuild (hsame.append found.reduceOption)]
  exact Schema.read_eq hmet hws

end Keyed

section Listed
variable {key name : String} {read : Place → Source → Except Markup.Fault α}
variable {element : α → Element}

theorem read_listed (hkey : key ≠ textKey) (hfirst : key.toList.head? ≠ some '@') {as : List α}
    (hn : TagNames name []) (hw : ∀ a ∈ as, (element a).WellFormed ∧ (element a).tag.key = key)
    (hr : ∀ a ∈ as, ∀ place, read place (element a).source = .ok a) (place : Place) :
    Schema.read (listed key read) .ok place (Element.node name [] (as.map element)).source =
      .ok as := by
  have hall : Element.AllWellFormed (as.map element) := by
    rw [Element.allWellFormed_iff]
    intro e he
    obtain ⟨a, ha, rfl⟩ := List.mem_map.1 he
    exact (hw a ha).1
  have hslot : (listed key read).slot key = some ⟨read, true⟩ := if_pos rfl
  have hc : List.Forall₂ (ChildGives (listed key read)
      (Element.node name [] (as.map element)).tag) (as.map element) as := by
    rw [List.forall₂_map_left_iff, List.forall₂_same]
    intro a ha
    exact ⟨⟨read, true⟩, by rw [(hw a ha).2, hslot], fun ahead => hr a ha _⟩
  have apart : Apart (listed key read) (fun _ => key) as := by
    refine ⟨?_, fun _ _ => hfirst⟩
    intro k slot hs hrepeated
    simp only [listed] at hs
    split at hs <;> cases hs
    cases hrepeated
  have hbuild : ∀ {vs ws : List α}, SameByKey (fun _ => key) vs ws →
      (Except.ok vs : Except Markup.Fault (List α)) = .ok ws := by
    intro vs ws hsame
    have hvs := hsame key
    simp only [BEq.rfl, List.filter_true] at hvs
    rw [hvs]
  exact read_node (listed_keyed hkey read) hbuild ⟨hn, hall⟩ (fun _ => .nil) hc apart

end Listed

end Records

end DialectBindings.Definition
