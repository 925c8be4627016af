import DialectBindings.Proofs.Contents
import DialectBindings.Proofs.Places
import DialectBindings.Proofs.Tags
import Mathlib.Data.List.Nodup

/-!
# Writing markup

An element is written with its attributes in double quotes, the five characters that have a name
as references, and either a text or further elements inside. What is read from that text is the
element with nothing changed.
-/

set_option autoImplicit false

namespace DialectBindings.Markup
open Text

/-! ## Characters -/

def nameOf? : Char → Option (List Char)
  | '&' => some ['a', 'm', 'p']
  | '<' => some ['l', 't']
  | '>' => some ['g', 't']
  | '\'' => some ['a', 'p', 'o', 's']
  | '"' => some ['q', 'u', 'o', 't']
  | _ => none

def spell (c : Char) : List Char :=
  match nameOf? c with
  | some name => '&' :: (name ++ [';'])
  | none => [c]

def spelled (s : List Char) : List Char := s.flatMap spell

structure Names (name : List Char) (c : Char) : Prop where
  chars : ∀ d ∈ name, inReference d = true
  stands : ∀ start, resolve start name = .ok c

theorem names_of_nameOf? {c : Char} {name : List Char} (h : nameOf? c = some name) :
    Names name c := by
  unfold nameOf? at h
  split at h <;> cases h <;> exact ⟨List.all_eq_true.1 rfl, fun _ => rfl⟩

theorem ne_of_nameOf? {c d : Char} (h : nameOf? c = none) (hd : (nameOf? d).isSome = true) :
    c ≠ d := by
  rintro rfl
  rw [h] at hd
  cases hd

theorem spell_of_none {c : Char} (h : nameOf? c = none) : spell c = [c] := by
  rw [spell, h]

theorem spell_of_some {c : Char} {name : List Char} (h : nameOf? c = some name) :
    spell c = '&' :: (name ++ [';']) := by
  rw [spell, h]

theorem spelled_cons (c : Char) (s : List Char) : spelled (c :: s) = spell c ++ spelled s :=
  List.flatMap_cons

theorem quote_not_mem_spelled (s : List Char) : '"' ∉ spelled s := by
  intro h
  obtain ⟨c, _, hc⟩ := List.mem_flatMap.1 h
  cases hn : nameOf? c with
  | none =>
    rw [spell_of_none hn] at hc
    exact ne_of_nameOf? hn rfl (List.mem_singleton.1 hc).symm
  | some name =>
    rw [spell_of_some hn] at hc
    simp only [List.mem_cons, List.mem_append, List.not_mem_nil, or_false] at hc
    rcases hc with hc | hc | hc
    · cases hc
    · unfold nameOf? at hn
      split at hn <;> cases hn <;> revert hc <;> decide
    · cases hc

theorem replaced_spell {s t : List Char} (h : ∀ start, replaced start t = .ok s) (c : Char)
    (start : Nat) : replaced start (spell c ++ t) = .ok (c :: s) := by
  cases hn : nameOf? c with
  | none =>
    have hamp : c ≠ '&' := ne_of_nameOf? hn rfl
    rw [spell_of_none hn, List.singleton_append, replaced.eq_def]
    split
    · rename_i he
      cases he
    · rename_i he
      cases he
      exact absurd rfl hamp
    · rename_i he
      cases he
      rw [h]
      rfl
  | some name =>
    obtain ⟨hchars, hstands⟩ := names_of_nameOf? hn
    have hin : ∀ d ∈ name, inName d = true := by
      intro d hd
      have hd := hchars d hd
      simp only [inReference, Bool.and_eq_true] at hd
      simp only [inName, Bool.and_eq_true]
      exact hd.1
    have hdrop := dropWhile_front hin (c := ';') (by decide) t
    have htake := takeWhile_front hin (c := ';') (by decide) t
    have hsplit : spell c ++ t = '&' :: (name ++ ';' :: t) := by
      rw [spell_of_some hn]
      simp
    rw [hsplit, replaced]
    split
    · rename_i hd
      rw [hdrop] at hd
      cases hd
      rw [htake, hstands, h]
      rfl
    · rename_i hno
      exact absurd hdrop (hno t)

theorem replaced_spelled (s : List Char) (start : Nat) : replaced start (spelled s) = .ok s := by
  induction s generalizing start with
  | nil => rw [spelled, List.flatMap_nil, replaced]
  | cons c s ih =>
    rw [spelled_cons]
    exact replaced_spell ih c start

namespace Levels

theorem ofText_spell {c : Char} (hc : isLineEnd c = false) (o : Open) (after : List Char) :
    ofText o (spell c ++ after) = (ofText o after).before (.text (.ok [c])) := by
  cases hn : nameOf? c with
  | none =>
    have hcr : ¬ splitsLineEnd [c] after := by
      rintro ⟨hlast, _⟩
      cases hlast
      cases hc
    have hhead := head_char (ne_of_nameOf? hn rfl) (ne_of_nameOf? hn rfl) hcr
    rw [hc, if_neg Bool.false_ne_true] at hhead
    rw [spell_of_none hn]
    exact ofText_token hhead rfl
  | some name =>
    obtain ⟨hchars, hstands⟩ := names_of_nameOf? hn
    have hdrop := dropWhile_front hchars (c := ';') (by decide) after
    have htake := takeWhile_front hchars (c := ';') (by decide) after
    have hsplit : spell c ++ after = '&' :: (name ++ ';' :: after) := by
      rw [spell_of_some hn]
      simp
    have hhead : head ('&' :: (name ++ ';' :: after)) = .token (.reference name) after := by
      show reference _ = _
      rw [reference, hdrop, htake]
      rfl
    have henter : Reading.enter ⟨[], o⟩ (.reference name) = .ok ⟨[.text (.ok [c])], o⟩ := by
      rw [Reading.enter, hstands]
      rfl
    rw [hsplit]
    exact ofText_token hhead henter

end Levels

def textContent : List Char → Content
  | [] => .closed []
  | c :: s => .text (.ok (c :: s)) (.closed [])

theorem prepend_textContent (c : Char) (s : List Char) :
    (textContent s).prepend (.ok [c]) = textContent (c :: s) := by
  cases s <;> rfl

theorem spelled_levels {s : List Char} (hs : ∀ c ∈ s, isLineEnd c = false) {o : Open}
    {after : List Char} (h : (Levels.ofText o after).level 0 = .closed []) :
    (Levels.ofText o (spelled s ++ after)).level 0 = textContent s ∧
      ∀ n, (Levels.ofText o (spelled s ++ after)).level (n + 1) =
        (Levels.ofText o after).level (n + 1) := by
  induction s with
  | nil => exact ⟨h, fun _ => rfl⟩
  | cons c s ih =>
    obtain ⟨hc, hs⟩ := List.forall_mem_cons.1 hs
    obtain ⟨hzero, hsucc⟩ := ih hs
    rw [spelled_cons, List.append_assoc, Levels.ofText_spell hc]
    constructor
    · rw [Levels.text_level_zero, hzero, prepend_textContent]
    · intro n
      rw [Levels.text_level_succ, hsucc]

/-! ## Tags -/

def writtenAttributes (as : List (String × Option String)) : List Attribute :=
  as.filterMap fun a => a.2.map fun value => ⟨a.1.toList, spelled value.toList⟩

def attributesText (as : List (String × Option String)) : List Char :=
  (writtenAttributes as).flatMap (attributeText · '"')

instance decidableIsName (s : List Char) : Decidable (IsName s) :=
  decidable_of_iff (s ≠ [] ∧ s.all isNameChar = true)
    ⟨fun h => ⟨h.1, List.all_eq_true.1 h.2⟩, fun h => ⟨h.1, List.all_eq_true.2 h.2⟩⟩

instance decidableUnprefixed (s : List Char) : Decidable (Unprefixed s) :=
  inferInstanceAs (Decidable (_ ∉ _))

/-- A name of an element and names of its attributes, all of them without a prefix. -/
structure TagNames (name : String) (keys : List String) : Prop where
  element : IsName name.toList ∧ Unprefixed name.toList
  keyed : ∀ k ∈ keys, IsName k.toList ∧ Unprefixed k.toList
  nodup : keys.Nodup

instance decidableTagNames (name : String) (keys : List String) :
    Decidable (TagNames name keys) :=
  decidable_of_iff ((IsName name.toList ∧ Unprefixed name.toList) ∧
    (∀ k ∈ keys, IsName k.toList ∧ Unprefixed k.toList) ∧ keys.Nodup)
    ⟨fun h => ⟨h.1, h.2.1, h.2.2⟩, fun h => ⟨h.1, h.2, h.3⟩⟩

def writtenTag (name : String) (as : List (String × Option String)) : Tag :=
  Tag.ofText [] (name.toList ++ attributesText as)

theorem bindings_unprefixed {as : List Attribute} (h : ∀ a ∈ as, Unprefixed a.name)
    (scope : Scope) :
    bindings scope (as.map fun a => .keyed a.name 0 (.ok a.value)) = .ok scope := by
  induction as with
  | nil => rfl
  | cons a as ih =>
    obtain ⟨ha, has⟩ := List.forall_mem_cons.1 h
    simp only [List.map_cons, bindings]
    split
    · rename_i hb
      exact absurd hb (ha.not_bound _)
    · exact ih has

section Tags
variable {name : String} {as : List (String × Option String)}

theorem mem_writtenAttributes {a : Attribute} :
    a ∈ writtenAttributes as ↔ ∃ key value, (key, some value) ∈ as ∧
      a = ⟨key.toList, spelled value.toList⟩ := by
  simp only [writtenAttributes, List.mem_filterMap, Option.map_eq_some_iff]
  constructor
  · rintro ⟨⟨key, value?⟩, hmem, value, rfl, rfl⟩
    exact ⟨key, value, hmem, rfl⟩
  · rintro ⟨key, value, hmem, rfl⟩
    exact ⟨(key, some value), hmem, value, rfl, rfl⟩

theorem written_attributes (h : ∀ a ∈ as, IsName a.1.toList) :
    Written (attributesText as) (writtenAttributes as) := by
  have hall : ∀ a ∈ writtenAttributes as, IsName a.name ∧ '"' ∉ a.value := by
    intro a ha
    obtain ⟨key, value, hmem, rfl⟩ := mem_writtenAttributes.1 ha
    exact ⟨h _ hmem, quote_not_mem_spelled _⟩
  unfold attributesText
  generalize writtenAttributes as = as at hall ⊢
  induction as with
  | nil => exact .nil nofun
  | cons a as ih =>
    obtain ⟨⟨hname, hvalue⟩, hmore⟩ := List.forall_mem_cons.1 hall
    exact (written_attributeText hname rfl hvalue).append (ih hmore)

variable (h : TagNames name (as.map (·.1)))
include h

theorem TagNames.written : Written (attributesText as) (writtenAttributes as) :=
  written_attributes fun a ha => (h.keyed a.1 (List.mem_map_of_mem ha)).1

theorem TagNames.unprefixed {a : Attribute} (ha : a ∈ writtenAttributes as) :
    Unprefixed a.name := by
  obtain ⟨key, value, hmem, rfl⟩ := mem_writtenAttributes.1 ha
  exact (h.keyed key (List.mem_map_of_mem hmem)).2

theorem TagNames.attributes_nodup : ((writtenAttributes as).map (·.name)).Nodup := by
  have hsub : ((writtenAttributes as).map (·.name)).Sublist ((as.map (·.1)).map String.toList) := by
    rw [writtenAttributes, List.map_filterMap, List.map_map]
    clear h
    induction as with
    | nil => exact .slnil
    | cons a as ih =>
      obtain ⟨key, value?⟩ := a
      cases value? with
      | none => exact ih.cons _
      | some value => exact ih.cons_cons _
  have hinj : Function.Injective String.toList := fun _ _ => String.toList_inj.1
  exact (List.Nodup.map hinj h.nodup).sublist hsub

theorem TagNames.tag_eq : writtenTag name as =
    ⟨name.toList, name.toList ++ attributesText as, [], none⟩ := by
  have hb : bindings [] (Tag.itemsOf (name.toList ++ attributesText as)) = .ok [] := by
    rw [bindings_items (itemsOf_written h.element.1 h.written)]
    exact bindings_unprefixed (fun _ => h.unprefixed) []
  rw [writtenTag, Tag.ofText, hb]
  simp only [(takeWhile_name h.element.1 h.written).1]

theorem TagNames.tag_key : (writtenTag name as).key = name := by
  rw [h.tag_eq, Tag.key, localName, h.element.2.split]
  exact String.ofList_toList

theorem TagNames.tag_attributes :
    (writtenTag name as).attributes = (writtenAttributes as).map .ok :=
  ofText_attributes h.element.1 h.written h.attributes_nodup []

theorem TagNames.present (scope : Scope) : (writtenTag name as).isAbsent scope = false := by
  rw [Tag.isAbsent, h.tag_attributes, List.any_eq_false]
  intro a ha
  obtain ⟨a, hmem, rfl⟩ := List.mem_map.1 ha
  rw [Tag.marksAbsent, (h.unprefixed hmem).split]
  exact Bool.false_ne_true

end Tags

/-! ## Elements -/

/-- An element to be written: its name, its attributes, and what is inside. -/
inductive Element
  | leaf (name : String) (attributes : List (String × Option String)) (text : String)
  | node (name : String) (attributes : List (String × Option String)) (children : List Element)

def enclosed (name : String) (as : List (String × Option String)) (inside : List Char) :
    List Char :=
  '<' :: (name.toList ++ (attributesText as ++ '>' ::
    (inside ++ '<' :: '/' :: (name.toList ++ ['>']))))

namespace Element

mutual

def chars : Element → List Char
  | .leaf name as text => enclosed name as (spelled text.toList)
  | .node name as children => enclosed name as (allChars children)

def allChars : List Element → List Char
  | [] => []
  | e :: es => e.chars ++ allChars es

end

def tag : Element → Tag
  | .leaf name as _ => writtenTag name as
  | .node name as _ => writtenTag name as

mutual

def inner : Element → Content
  | .leaf _ _ text => textContent text.toList
  | .node _ _ children => siblings children (.closed [])

def siblings : List Element → Content → Content
  | [], c => c
  | e :: es, c => .element e.tag e.inner (siblings es c)

end

abbrev source (e : Element) : Source := .element e.tag e.inner

mutual

/-- The names in an element are those of tags, and its texts are without line ends. -/
def WellFormed : Element → Prop
  | .leaf name as text =>
    TagNames name (as.map (·.1)) ∧ ∀ c ∈ text.toList, isLineEnd c = false
  | .node name as children => TagNames name (as.map (·.1)) ∧ AllWellFormed children

def AllWellFormed : List Element → Prop
  | [] => True
  | e :: es => e.WellFormed ∧ AllWellFormed es

end

theorem allWellFormed_iff {es : List Element} : AllWellFormed es ↔ ∀ e ∈ es, e.WellFormed := by
  induction es with
  | nil => exact ⟨fun _ => nofun, fun _ => trivial⟩
  | cons e es ih => rw [AllWellFormed, ih, List.forall_mem_cons]

theorem elements_siblings (es : List Element) (c : Content) :
    (siblings es c).elements = es.map (fun e => (e.tag, e.inner)) ++ c.elements := by
  induction es with
  | nil => rfl
  | cons e es ih => rw [siblings, Content.elements, ih, List.map_cons, List.cons_append]

theorem WellFormed.tag_clean {e : Element} (h : e.WellFormed) :
    e.tag.scope = [] ∧ e.tag.fault = none := by
  cases e with
  | leaf name as text => exact ⟨by rw [tag, h.1.tag_eq], by rw [tag, h.1.tag_eq]⟩
  | node name as children => exact ⟨by rw [tag, h.1.tag_eq], by rw [tag, h.1.tag_eq]⟩

theorem WellFormed.tag_name {e : Element} (h : e.WellFormed) : e.tag.name = e.tag.key.toList := by
  cases e with
  | leaf name as text =>
    rw [tag, h.1.tag_key, h.1.tag_eq]
  | node name as children =>
    rw [tag, h.1.tag_key, h.1.tag_eq]

theorem WellFormed.present {e : Element} (h : e.WellFormed) (scope : Scope) :
    e.tag.isAbsent scope = false := by
  cases e with
  | leaf name as text => exact h.1.present scope
  | node name as children => exact h.1.present scope

theorem sound_textContent (s : List Char) : (textContent s).Sound := by
  cases s with
  | nil => trivial
  | cons c s => exact ⟨⟨_, rfl⟩, trivial⟩

mutual

theorem WellFormed.sound : ∀ {e : Element}, e.WellFormed → e.inner.Sound
  | .leaf _ _ text, _ => sound_textContent text.toList
  | .node _ _ _, h => sound_siblings h.2 trivial

theorem sound_siblings : ∀ {es : List Element} {c : Content}, AllWellFormed es → c.Sound →
    (siblings es c).Sound
  | [], _, _, hc => hc
  | _ :: _, _, h, hc => ⟨h.1.tag_clean.2, h.1.sound, sound_siblings h.2 hc⟩

end

/-! ## Reading what was written -/

theorem head_closing {name : List Char} (h : IsName name) (after : List Char) :
    head ('<' :: '/' :: (name ++ '>' :: after)) = .token (.closing name) after := by
  have hcut : cutTag? none (name ++ '>' :: after) = some (name, after) := by
    rw [Written.cutTag?_outside fun c hc => Written.not_special_of_name (h.chars c hc)]
    simp [cutTag?]
  have hname : closingName name = name := by
    have hdrop : name.reverse.dropWhile isSpace = name.reverse := by
      cases hr : name.reverse with
      | nil => rfl
      | cons c s =>
        have hc : c ∈ name := by
          rw [← List.mem_reverse, hr]
          exact List.mem_cons_self
        exact List.dropWhile_cons_of_neg (isNameChar_not_space (h.chars c hc))
    rw [closingName]
    simp [hdrop, h.nonempty]
  show closingTag _ = _
  simp only [closingTag, hcut, hname]

theorem closing_levels {name : List Char} (h : IsName name) {o : Open} (ho : o.scope = [])
    (after : List Char) :
    Levels.ofText ((name, []) :: o) ('<' :: '/' :: (name ++ '>' :: after)) =
      (Levels.ofText o after).before (.closing []) := by
  have henter : Reading.enter ⟨[], (name, []) :: o⟩ (.closing name) = .ok ⟨[.closing []], o⟩ := by
    simp only [Reading.enter, if_true, ho]
  exact Levels.ofText_token (head_closing h after) henter

theorem enclosed_levels {name : String} {as : List (String × Option String)}
    (h : TagNames name (as.map (·.1))) {inside : List Char} {inner : Content}
    (hin : ∀ (o : Open) (after : List Char), o.scope = [] →
      (Levels.ofText o after).level 0 = .closed [] →
      (Levels.ofText o (inside ++ after)).level 0 = inner ∧
        ∀ n, (Levels.ofText o (inside ++ after)).level (n + 1) =
          (Levels.ofText o after).level (n + 1))
    {o : Open} (ho : o.scope = []) {after : List Char}
    (ha : ((Levels.ofText o after).level 0).scopeAhead [] = []) :
    (Levels.ofText o (enclosed name as inside ++ after)).level 0 =
        .element (writtenTag name as) inner ((Levels.ofText o after).level 0) ∧
      ∀ n, (Levels.ofText o (enclosed name as inside ++ after)).level (n + 1) =
        (Levels.ofText o after).level (n + 1) := by
  let left := '<' :: '/' :: (name.toList ++ '>' :: after)
  have hopen : Levels.ofText o (enclosed name as inside ++ after) =
      (Levels.ofText ((name.toList, []) :: o) (inside ++ left)).before
        (.opening (writtenTag name as)) := by
    have hsplit : enclosed name as inside ++ after =
        '<' :: (name.toList ++ (attributesText as ++ tagEnd false (inside ++ left))) := by
      simp [enclosed, tagEnd, left]
    have henter : Reading.enter ⟨[], o⟩ (.opening (name.toList ++ attributesText as) false) =
        .ok ⟨[.opening (writtenTag name as)], (name.toList, []) :: o⟩ := by
      have htag := h.tag_eq
      simp only [Reading.enter, ho, Bool.false_eq_true, if_false]
      show Except.ok (Reading.mk [.opening (writtenTag name as)]
        (((writtenTag name as).name, (writtenTag name as).scope) :: o)) = _
      rw [htag]
    rw [hsplit]
    exact Levels.ofText_token (head_tag h.element.1 h.written false _) henter
  have hclose := closing_levels h.element.1 ho after
  have hinside := hin ((name.toList, []) :: o) left rfl (by
    rw [hclose, Levels.closing_level_zero, ha])
  obtain ⟨hzero, hsucc⟩ := hinside
  rw [hopen]
  constructor
  · rw [Levels.opening_level_zero, hzero, hsucc, hclose, Levels.closing_level_succ]
  · intro n
    rw [Levels.opening_level_succ, hsucc, hclose, Levels.closing_level_succ]

mutual

/-- An element is read from its text, wherever that stands. -/
theorem WellFormed.levels : ∀ {e : Element}, e.WellFormed → ∀ {o : Open}, o.scope = [] →
    ∀ {after : List Char}, ((Levels.ofText o after).level 0).scopeAhead [] = [] →
    (Levels.ofText o (e.chars ++ after)).level 0 =
        .element e.tag e.inner ((Levels.ofText o after).level 0) ∧
      ∀ n, (Levels.ofText o (e.chars ++ after)).level (n + 1) =
        (Levels.ofText o after).level (n + 1)
  | .leaf _ _ _, h, _, ho, _, ha =>
    enclosed_levels h.1 (fun _ _ _ hafter => spelled_levels h.2 hafter) ho ha
  | .node _ _ children, h, _, ho, _, ha => by
    refine enclosed_levels h.1 (fun o after hscope hafter => ?_) ho ha
    have hnext : ((Levels.ofText o after).level 0).scopeAhead [] = [] := by
      rw [hafter]
      rfl
    have hall := siblings_levels h.2 hscope hnext
    rw [hafter] at hall
    exact hall

theorem siblings_levels : ∀ {es : List Element}, AllWellFormed es → ∀ {o : Open}, o.scope = [] →
    ∀ {after : List Char}, ((Levels.ofText o after).level 0).scopeAhead [] = [] →
    (Levels.ofText o (allChars es ++ after)).level 0 =
        siblings es ((Levels.ofText o after).level 0) ∧
      ∀ n, (Levels.ofText o (allChars es ++ after)).level (n + 1) =
        (Levels.ofText o after).level (n + 1)
  | [], _, _, _, _, _ => ⟨rfl, fun _ => rfl⟩
  | e :: es, h, o, ho, after, ha => by
    obtain ⟨hzero, hsucc⟩ := siblings_levels h.2 ho ha
    have hnext : ((Levels.ofText o (allChars es ++ after)).level 0).scopeAhead [] = [] := by
      rw [hzero]
      cases es with
      | nil => exact ha
      | cons e' es' => exact h.2.1.tag_clean.1
    obtain ⟨hfirst, hmore⟩ := h.1.levels ho hnext
    rw [allChars, List.append_assoc]
    refine ⟨?_, fun n => (hmore n).trans (hsucc n)⟩
    rw [hfirst, hzero, siblings]

end

theorem WellFormed.ofDocument {e : Element} (h : e.WellFormed) :
    Content.ofDocument e.chars = .element e.tag e.inner .ended := by
  have hchars : Content.ofDocument e.chars = Content.ofChars e.chars := by
    have hfirst : ∃ s, e.chars = '<' :: s := by
      cases e with
      | leaf name as text => exact ⟨_, by rw [chars, enclosed]⟩
      | node name as children => exact ⟨_, by rw [chars, enclosed]⟩
    obtain ⟨s, hs⟩ := hfirst
    rw [hs]
    rfl
  have hend : (Levels.ofText [] []).level 0 = .ended := by
    rw [Levels.ofText, Reading.run_ended rfl]
    rfl
  have hnext : ((Levels.ofText [] []).level 0).scopeAhead [] = [] := by
    rw [hend]
    rfl
  have hscope : Open.scope [] = [] := rfl
  have hread := (h.levels hscope hnext).1
  rw [List.append_nil, hend] at hread
  rw [hchars, Levels.ofChars_eq, hread]

end Element

end DialectBindings.Markup
