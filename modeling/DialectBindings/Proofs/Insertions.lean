import DialectBindings.Proofs.Edits
import DialectBindings.Proofs.Patches
import DialectBindings.Proofs.SurroundingSpace

/-!
# Unknown elements inside texts

An element that a definition does not know, put anywhere into the content of a field, a parameter
or a deprecation: the definition is parsed as before, to the same messages with the same layout,
unless the element has text on both sides.
-/

set_option autoImplicit false

namespace DialectBindings.Definition
open Markup Text Results

/-! ## Records of texts -/

theorem checkWhole_of_chars {tag : Tag} {inner : Content} {s : List Char}
    (h : (Source.element tag inner).chars = .ok s) : inner.checkWhole tag.name = .ok () := by
  have hplain : plainText tag inner = .ok s := h
  cases inner with
  | closed next => rfl
  | ended => cases hplain
  | failed fault => cases hplain
  | text value rest =>
    obtain ⟨t, _, hrest⟩ := bind_eq_ok.1 hplain
    cases rest with
    | closed next => rfl
    | element first inside more =>
      obtain ⟨_, _, hrest⟩ := bind_eq_ok.1 hrest
      cases hrest
    | _ => cases hrest
  | element first inside rest =>
    obtain ⟨_, _, hrest⟩ := bind_eq_ok.1 hplain
    cases hrest

theorem checkWhole_of_text {tag : Tag} {inner : Content} {s : String}
    (h : (Source.element tag inner).readText = .ok s) : inner.checkWhole tag.name = .ok () := by
  obtain ⟨cs, hcs, _⟩ := map_eq_ok.1 h
  exact checkWhole_of_chars hcs

theorem spaced_of {α : Type} {part : String → α} {bare : α → α}
    (h : ∀ s, bare (part s) = part (unspaced s)) (s t : List Char)
    (hst : trimBy isSpace s = trimBy isSpace t) :
    bare (part (String.ofList s)) = bare (part (String.ofList t)) := by
  rw [h, h, unspaced, unspaced, String.toList_ofList, String.toList_ofList, hst]

theorem param_texted : Schema.Texted ⟨ParamPart.slot, none⟩ ParamPart.description where
  toFlat := param_flat
  text := ⟨_, rfl, fun _ _ => rfl⟩
  whole := by
    intro k slot hs place tag inner a ha
    simp only [ParamPart.slot] at hs
    split at hs <;> cases hs <;> obtain ⟨b, hb, _⟩ := map_eq_ok.1 ha
    · obtain ⟨s, hchars, _⟩ := bind_eq_ok.1 hb
      exact checkWhole_of_chars hchars
    · exact checkWhole_of_text hb
    · exact checkWhole_of_text hb
    · obtain ⟨s, hchars, _⟩ := bind_eq_ok.1 hb
      exact checkWhole_of_chars hchars
    · exact checkWhole_of_text hb

theorem deprecation_texted : Schema.Texted ⟨DeprecationPart.slot, none⟩ DeprecationPart.note where
  toFlat := deprecation_flat
  text := ⟨_, rfl, fun _ _ => rfl⟩
  whole := by
    intro k slot hs place tag inner a ha
    simp only [DeprecationPart.slot] at hs
    split at hs <;> cases hs <;> obtain ⟨b, hb, _⟩ := map_eq_ok.1 ha <;> exact checkWhole_of_text hb

theorem field_texted : Schema.Texted ⟨FieldPart.slot, none⟩ FieldPart.description where
  toFlat := field_flat
  text := ⟨_, rfl, fun _ _ => rfl⟩
  whole := by
    intro k slot hs place tag inner a ha
    simp only [FieldPart.slot] at hs
    split at hs <;> cases hs <;> obtain ⟨b, hb, _⟩ := map_eq_ok.1 ha <;> exact checkWhole_of_text hb

section Reading
variable {reason : Prop} {place : Place} {tag : Tag} {inner inner' : Content}

theorem keeps_texted {α β : Type} {schema : Schema α} {part : String → α}
    (texted : schema.Texted part) {ρ : Role} (fits : Fits ρ schema)
    {build : List α → Except Markup.Fault β} {bare : α → α} {whole : β → β}
    (hpart : ∀ s, bare (part s) = part (unspaced s))
    (commutes : ∀ vs, (build vs).map whole = build (vs.map bare))
    (h : Parting ρ.knows reason inner inner') :
    Keeps reason whole (schema.read build place (.element tag inner))
      (schema.read build place (.element tag inner')) :=
  keeps_read (fun _ _ hvs => .of_commutes commutes hvs)
    fun seen => texted.keeps (spaced_of hpart) fits.unknown h _ seen

theorem keeps_param (h : Parting Role.param.knows reason inner inner') :
    Keeps reason ParamDecl.bare (ParamPart.read place (.element tag inner))
      (ParamPart.read place (.element tag inner')) :=
  keeps_texted param_texted (fun _ => rfl) (fun _ => rfl) ParamPart.build_bare h

theorem keeps_deprecation (h : Parting Role.deprecation.knows reason inner inner') :
    Keeps reason Deprecation.bare (DeprecationPart.read place (.element tag inner))
      (DeprecationPart.read place (.element tag inner')) :=
  keeps_texted deprecation_texted (fun _ => rfl) (fun _ => rfl) DeprecationPart.build_bare h

theorem keeps_field (h : Parting Role.field.knows reason inner inner') :
    Keeps reason FieldDecl.bare (FieldPart.read place (.element tag inner))
      (FieldPart.read place (.element tag inner')) :=
  keeps_texted field_texted (fun _ => rfl) (fun _ => rfl) FieldPart.build_bare h

theorem keeps_deprecated {parent : Tag} {ahead : Option Scope}
    (h : Parting Role.deprecation.knows reason inner inner')
    (marked : MarkKept parent tag inner inner') :
    Keeps reason (fun _ => ()) ((Source.element tag inner).readOptional
        (DeprecationPart.read ⟨parent, ahead⟩) ⟨parent, ahead⟩)
      ((Source.element tag inner').readOptional
        (DeprecationPart.read ⟨parent, ahead⟩) ⟨parent, ahead⟩) := by
  apply keeps_optional (keeps_deprecation h) h.padded.passOver
  · intro d hd
    exact deprecation_texted.passOver hd
  · cases ahead with
    | none => exact marked
    | some scope => exact id

end Reading

/-! ## Records around them -/

section Around
variable {reason : Prop} {parent : Tag} {ahead : Option Scope} {ρ : Role}
variable {tag : Tag} {inner inner' : Content}

theorem Patched.of_isLeaf {c c' : Content} (h : Patched reason parent ρ c c')
    (hρ : ρ.isLeaf = true) : c' = c := by
  induction h with
  | same parent ρ c => rfl
  | text v rest ih => rw [ih hρ]
  | element inside rest ihi ih =>
    rw [Role.child_of_isLeaf hρ] at ihi
    rw [ihi rfl, ih hρ]
  | record role parting marked rest ih =>
    rw [Role.child_of_isLeaf hρ] at role
    cases role

theorem PatchedChild.of_hasText (h : PatchedChild reason parent ρ tag inner inner')
    (hρ : (ρ.child tag.key).isLeaf = true) : Parting (ρ.child tag.key).knows reason inner inner' ∧
      (ρ.mayBeAbsent tag.key = true → MarkKept parent tag inner inner') := by
  rcases h with h | ⟨_, hparting, marked⟩
  · rw [h.of_isLeaf hρ]
    exact ⟨.same rfl, fun _ => id⟩
  · exact ⟨hparting, marked⟩

theorem PatchedChild.of_not_hasText (h : PatchedChild reason parent ρ tag inner inner')
    (hρ : (ρ.child tag.key).hasText = false) : Patched reason tag (ρ.child tag.key) inner inner' := by
  rcases h with h | ⟨htext, _⟩
  · exact h
  · rw [hρ] at htext
    cases htext

theorem PatchedChild.of_plain (h : PatchedChild reason parent ρ tag inner inner')
    (hρ : ρ.child tag.key = .plain) : inner' = inner :=
  (h.of_not_hasText (by rw [hρ]; rfl)).of_isLeaf (by rw [hρ]; rfl)

theorem slot_of_find {α : Type} {schema : Schema α} (hb : schema.body = none) {key : String}
    {slot : Slot α} {group : Option Schema.Group}
    (h : schema.find (.element tag inner) = some (key, slot, group)) :
    schema.slot tag.key = some slot := by
  simp only [Schema.find, hb] at h
  split at h
  · cases h
  · rename_i found hfound
    cases h
    exact hfound

theorem keeps_record {α β γ : Type} {schema : Schema α} {build : List α → Except Markup.Fault β}
    {f : α → α} {g : β → γ} {place : Place}
    (hbuild : ∀ vs ws, ws.map f = vs.map f → Keeps reason g (build vs) (build ws))
    (hread : ∀ child inner inner', PatchedChild reason tag ρ child inner inner' →
      ∀ key slot group, schema.find (.element child inner) = some (key, slot, group) → ∀ ahead,
        Keeps reason f (slot.read ⟨tag, ahead⟩ (.element child inner))
          (slot.read ⟨tag, ahead⟩ (.element child inner')))
    (h : Patched reason tag ρ inner inner') :
    Keeps reason g (schema.read build place (.element tag inner))
      (schema.read build place (.element tag inner')) :=
  keeps_read hbuild fun seen => h.children hread place.ahead seen

def Role.records : Role → List String
  | root => ["enums", "messages"]
  | enums => ["enum"]
  | enum => ["entry", "deprecated"]
  | entry => ["param", "deprecated"]
  | messages => ["message"]
  | message => ["field", "deprecated"]
  | _ => []

theorem Role.child_records {ρ : Role} (hρ : ρ ≠ document) (k : String) :
    k ∈ ρ.records ∨ ρ.child k = plain := by
  unfold child
  split <;> simp_all [records]

theorem Role.child_pair (ρ : Role) {a b : String} (h : ρ.records = [a, b]) (k : String) :
    k = a ∨ k = b ∨ ρ.child k = plain := by
  have hρ : ρ ≠ document := by
    rintro rfl
    cases h
  have hmem := child_records hρ k
  rwa [h, List.mem_pair, or_assoc] at hmem

theorem keeps_entry {place : Place} (h : Patched reason tag .entry inner inner') :
    Keeps reason EntryDecl.bare (EntryPart.read place (.element tag inner))
      (EntryPart.read place (.element tag inner')) := by
  refine keeps_record (fun _ _ hvs => .of_commutes EntryPart.build_bare hvs) ?_ h
  intro child inner inner' hchild key slot group hfind ahead
  have hslot := slot_of_find rfl hfind
  rcases Role.child_pair .entry rfl child.key with hkey | hkey | hplain
  · obtain ⟨hparting, _⟩ := hchild.of_hasText (by rw [hkey]; rfl)
    rw [hkey] at hslot hparting
    cases hslot
    exact (keeps_param hparting).map fun p q hpq => congrArg EntryPart.param hpq
  · obtain ⟨hparting, marked⟩ := hchild.of_hasText (by rw [hkey]; rfl)
    rw [hkey] at hslot hparting marked
    cases hslot
    exact (keeps_deprecated hparting (marked rfl)).map fun _ _ _ => rfl
  · rw [hchild.of_plain hplain]
    exact .refl _ _ _

theorem keeps_enum {place : Place} (h : Patched reason tag .enum inner inner') :
    Keeps reason EnumDecl.bare (EnumPart.read place (.element tag inner))
      (EnumPart.read place (.element tag inner')) := by
  refine keeps_record (fun _ _ hvs => .of_commutes EnumPart.build_bare hvs) ?_ h
  intro child inner inner' hchild key slot group hfind ahead
  have hslot := slot_of_find rfl hfind
  rcases Role.child_pair .enum rfl child.key with hkey | hkey | hplain
  · have hpatched := hchild.of_not_hasText (by rw [hkey]; rfl)
    rw [hkey] at hslot hpatched
    cases hslot
    exact (keeps_entry hpatched).map fun p q hpq => congrArg EnumPart.entry hpq
  · obtain ⟨hparting, marked⟩ := hchild.of_hasText (by rw [hkey]; rfl)
    rw [hkey] at hslot hparting marked
    cases hslot
    exact (keeps_deprecated hparting (marked rfl)).map fun _ _ _ => rfl
  · rw [hchild.of_plain hplain]
    exact .refl _ _ _

theorem keeps_listed {α γ : Type} {f : α → α} {g : List α → γ} {key : String}
    {read : Place → Source → Except Markup.Fault α} {place : Place}
    (hg : ∀ vs ws : List α, ws.map f = vs.map f → g ws = g vs)
    (hread : ∀ child inner inner', child.key = key →
      PatchedChild reason tag ρ child inner inner' → ∀ place,
        Keeps reason f (read place (.element child inner)) (read place (.element child inner')))
    (h : Patched reason tag ρ inner inner') :
    Keeps reason g (Schema.read (listed key read) .ok place (.element tag inner))
      (Schema.read (listed key read) .ok place (.element tag inner')) := by
  refine keeps_record (fun vs ws hvs => .ok (hg vs ws hvs)) ?_ h
  intro child inner inner' hchild found slot group hfind ahead
  have hslot := slot_of_find rfl hfind
  simp only [listed] at hslot
  split at hslot
  · rename_i hkey
    cases hslot
    exact hread child inner inner' hkey hchild _
  · cases hslot

theorem keeps_enums {place : Place} (h : Patched reason tag .enums inner inner') :
    Keeps reason (List.map EnumDecl.bare) (readEnums place (.element tag inner))
      (readEnums place (.element tag inner')) := by
  rw [readEnums_eq]
  refine keeps_listed (fun _ _ hvs => hvs) ?_ h
  intro child inner inner' hkey hchild place
  have hpatched := hchild.of_not_hasText (by rw [hkey]; rfl)
  rw [hkey] at hpatched
  exact keeps_enum hpatched

theorem keeps_item {place : Place} (hchild : PatchedChild reason parent .message tag inner inner') :
    Keeps reason MessageItem.bare (MessageItem.read place (.element tag inner))
      (MessageItem.read place (.element tag inner')) := by
  rcases Role.child_pair .message rfl tag.key with hkey | hkey | hplain
  · obtain ⟨hparting, _⟩ := hchild.of_hasText (by rw [hkey]; rfl)
    rw [hkey] at hparting
    simp only [MessageItem.read, hkey]
    exact (keeps_field hparting).map fun p q hpq => congrArg MessageItem.field hpq
  · obtain ⟨hparting, _⟩ := hchild.of_hasText (by rw [hkey]; rfl)
    rw [hkey] at hparting
    simp only [MessageItem.read, hkey]
    exact (keeps_deprecation hparting).map fun p q hpq => congrArg MessageItem.deprecated hpq
  · rw [hchild.of_plain hplain]
    exact .refl _ _ _

theorem keeps_message {place : Place} (h : Patched reason tag .message inner inner') :
    Keeps reason MessageDecl.bare (MessagePart.read place (.element tag inner))
      (MessagePart.read place (.element tag inner')) := by
  refine keeps_record (fun _ _ hvs => .of_commutes MessagePart.build_bare hvs) ?_ h
  intro child inner inner' hchild key slot group hfind ahead
  have hbody : (⟨MessagePart.slot, some MessagePart.body⟩ : Schema MessagePart).slot child.key = none →
      slot = MessagePart.body := by
    intro hnone
    simp only [Schema.find] at hfind
    rw [show MessagePart.slot child.key = none from hnone] at hfind
    cases hfind
    rfl
  rcases Role.child_pair .message rfl child.key with hkey | hkey | hplain
  · rw [hbody (by rw [hkey]; rfl)]
    exact (keeps_item hchild).map fun p q hpq => congrArg MessagePart.item hpq
  · rw [hbody (by rw [hkey]; rfl)]
    exact (keeps_item hchild).map fun p q hpq => congrArg MessagePart.item hpq
  · rw [hchild.of_plain hplain]
    exact .refl _ _ _

theorem keeps_messages {place : Place} (h : Patched reason tag .messages inner inner') :
    Keeps reason (List.map MessageDecl.bare) (readMessages place (.element tag inner))
      (readMessages place (.element tag inner')) := by
  rw [readMessages_eq]
  refine keeps_listed (fun _ _ hvs => hvs) ?_ h
  intro child inner inner' hkey hchild place
  have hpatched := hchild.of_not_hasText (by rw [hkey]; rfl)
  rw [hkey] at hpatched
  exact keeps_message hpatched

theorem keeps_root (place : Place) (h : Patched reason tag .root inner inner') :
    Keeps reason Document.bare
      (Schema.read ⟨DocumentPart.slot, none⟩ DocumentPart.build place (.element tag inner))
      (Schema.read ⟨DocumentPart.slot, none⟩ DocumentPart.build place (.element tag inner')) := by
  refine keeps_record (fun _ _ hvs => .of_commutes DocumentPart.build_bare hvs) ?_ h
  intro child inner inner' hchild key slot group hfind ahead
  have hslot := slot_of_find rfl hfind
  rcases Role.child_pair .root rfl child.key with hkey | hkey | hplain
  · have hpatched := hchild.of_not_hasText (by rw [hkey]; rfl)
    rw [hkey] at hslot hpatched
    cases hslot
    exact (keeps_enums hpatched).map fun p q hpq => congrArg DocumentPart.enums hpq
  · have hpatched := hchild.of_not_hasText (by rw [hkey]; rfl)
    rw [hkey] at hslot hpatched
    cases hslot
    exact (keeps_messages hpatched).map fun p q hpq => congrArg DocumentPart.messages hpq
  · rw [hchild.of_plain hplain]
    exact .refl _ _ _

theorem keeps_document {c c' : Content} (h : Patched reason parent .document c c') :
    Keeps reason Document.bare (Document.ofContent c) (Document.ofContent c') := by
  induction c generalizing c' with
  | closed next =>
    cases h
    exact .refl _ _ _
  | ended =>
    cases h
    exact .refl _ _ _
  | failed fault =>
    cases h
    exact .refl _ _ _
  | text value rest ih =>
    obtain ⟨rest', rfl, hrest⟩ := h.of_text
    rw [Document.ofContent, Document.ofContent]
    apply (Carries.same _ _).bind
    rintro s _ rfl
    split
    · exact ih hrest
    · exact Carries.of_error
  | element tag inner rest _ _ =>
    obtain ⟨inner', rest', rfl, hchild, _⟩ := h.of_element
    have hpatched : Patched reason tag .root inner inner' := hchild.of_not_hasText rfl
    rw [Document.ofContent, Document.ofContent]
    apply (Carries.same _ _).bind
    rintro _ _ rfl
    exact keeps_root ⟨tag, none⟩ hpatched

end Around

/-! ## Places in a text -/

def eventsOf (before : List Char) : List Markup.Event :=
  (Reading.run ⟨[], []⟩ (unmarked before)).1.events

/-- What follows a place in the element that it is in. -/
def contentBehind (before after : List Char) (o : Open) : Content :=
  (Levels.ofText o (Reading.rest (unmarked before) after)).level 0

/-- A mark of absence on one of two tags counts in a scope. -/
def Absent (parent record : Tag) (scope : Scope) : Prop :=
  parent.isAbsent scope = true ∨ record.isAbsent scope = true

theorem markKept_of_absent {parent record : Tag} {inner inner' : Content} {scope : Scope}
    (h : Absent parent record (inner.scopeAhead record.scope) → Absent parent record scope)
    (hscope : inner'.scopeAhead record.scope = scope) : MarkKept parent record inner inner' := by
  intro hmark
  rw [Source.isAbsent, Option.getD_none, Bool.or_eq_true] at hmark ⊢
  rw [hscope]
  exact h hmark

/-- An element is put into the content of a field, a parameter or a deprecation, or of an element
there that is unknown. It is unknown itself. If it comes first in a deprecation that counts as absent
there, the mark counts in its scope as well. -/
structure Insertion (before text after : List Char) (o : Open) (tag : Tag) : Prop where
  reach : Reads [] (unmarked before) (eventsOf before) o
  place : inText o = true
  element : ∃ inside, IsElement o text tag inside ∧ ∀ e ∈ inside, e.Clean
  clean : tag.fault = none
  unknown : (roleIn o).knows tag.key = false
  marked : ∀ record earlier, eventsOf before = .opening record :: earlier →
    (roleOf (openTags [] earlier)).mayBeAbsent record.key = true →
    Absent (parentOf (openTags [] earlier)) record
      ((contentBehind before after o).scopeAhead record.scope) →
    Absent (parentOf (openTags [] earlier)) record tag.scope

/-- A place has text that is not blank on both sides. -/
def PartsText (before after : List Char) (o : Open) : Prop :=
  (roleIn o).hasText = true ∧ (frontText (eventsOf before)).Shows ∧
    (contentBehind before after o).Shows

theorem frontText_opening (es : List Markup.Event) (tag : Tag) (earlier : List Markup.Event) :
    frontText (es ++ .opening tag :: earlier) = frontText es := by
  have htake : (es ++ .opening tag :: earlier).takeWhile Event.isText =
      es.takeWhile Event.isText := by
    induction es with
    | nil => rfl
    | cons e es ih =>
      rw [List.cons_append, List.takeWhile_cons, List.takeWhile_cons, ih]
  rw [frontText, htake, frontText]

/-- A document with an element that is put into it is patched. -/
theorem Insertion.patched {before text after : List Char} {o : Open} {tag : Tag}
    (h : Insertion before text after o tag) :
    Patched (PartsText before after o) (parentOf []) .document
      (Content.ofDocument (before ++ after)) (Content.ofDocument (before ++ (text ++ after))) := by
  obtain ⟨inside, helement, hclean⟩ := h.element
  have hreach : Reads (stackOf []) (unmarked before) (eventsOf before) o := h.reach
  have hstack := hreach.stackOf
  cases htags : openTags [] (eventsOf before) with
  | nil =>
    have hplace := h.place
    rw [htags] at hstack
    rw [← hstack] at hplace
    cases hplace
  | cons record tags =>
    obtain ⟨inner, earlier, hevents, hwithin, hearlier⟩ := exists_opening htags
    have hrole : roleOf (record :: tags) = roleIn o := by rw [roleOf, ← htags, hstack]
    have hbefore : before ≠ [] := by
      rintro rfl
      rw [reaches_nil ⟨_, h.reach⟩, htags] at hstack
      cases hstack
    obtain ⟨_, hlevels⟩ := helement.levels
    obtain ⟨content, _, hsound, hzero, hsucc⟩ := hlevels after
    obtain ⟨hline, hlines⟩ := levels_lineEnd o (unmarked before) after
    have hbehind : contentBehind before after o =
        (Levels.ofText o (Reading.rest (unmarked before) after)).level 0 := rfl
    rw [ofDocument_eq, ofDocument_eq, unmarked_append (.inl hbefore), unmarked_append (.inl hbefore),
      Levels.ofChars_eq, Levels.ofChars_eq, h.reach.ofText, h.reach.ofText,
      Reading.rest_of_not (helement.not_split _ _)]
    generalize Levels.ofText o (Reading.rest (unmarked before) after) = l at hline hlines hbehind ⊢
    have haround : ∀ n, l.level (n + 1) = (Levels.ofText o (text ++ after)).level (n + 1) :=
      fun n => (hlines n).trans (hsucc n).symm
    generalize Levels.ofText o (text ++ after) = l' at hzero haround ⊢
    suffices hall : LevelsPatched (PartsText before after o) [] (l.behind (eventsOf before))
        (l'.behind (eventsOf before)) from hall 0
    have hfront : ∀ n, (l.behind inner).level (n + 1) = (l'.behind inner).level (n + 1) := by
      intro n
      rw [hwithin.level_succ, hwithin.level_succ, haround]
    rw [hevents, Levels.behind_append, Levels.behind_append, Levels.behind_cons, Levels.behind_cons]
    by_cases role : (roleIn o).hasText = true
    · have hparted : (frontText inner).Shows → (l.level 0).Shows → PartsText before after o := by
        intro hfront hback
        exact ⟨role, by rwa [hevents, frontText_opening], hbehind ▸ hback⟩
      obtain ⟨hparting, hahead⟩ := parting_within hwithin h.unknown h.clean (hsound hclean) hline
        hparted hzero
      refine levelsPatched_record hearlier (by rwa [hrole]) (hrole ▸ hparting) ?_ hfront
      intro hmay
      by_cases hinner : inner = []
      · subst hinner
        have hmarked := h.marked record earlier hevents (by rwa [hearlier])
        rw [hearlier, hbehind] at hmarked
        apply markKept_of_absent hmarked
        exact congrArg (Content.scopeAhead record.scope) hzero
      · exact markKept_of_ahead _ _ (hahead hinner)
    · have hpadded : Padded ((l.behind inner).level 0) ((l'.behind inner).level 0) := by
        apply hwithin.lift (fun v _ _ h => .text v h) (fun _ _ _ _ _ h h' => .element (.same h) h')
        rw [hzero]
        exact .insert h.clean (hsound hclean) (padded_line hline)
      obtain ⟨hintext, hunknown⟩ := inText_outer (hrole ▸ role) (by rw [← htags, hstack, h.place])
      apply levelsPatched_inside hearlier hintext hunknown hpadded (Levels.opening_level_zero _ _)
      · rw [Levels.opening_level_zero, hfront]
      · intro n
        rw [Levels.opening_level_succ, Levels.opening_level_succ, hfront]

theorem layouts_of_bare {dialect dialect' : Dialect} (h : dialect'.bare = dialect.bare) :
    dialect'.messages.map Message.layout = dialect.messages.map Message.layout := by
  have hbare (ms : List Message) : (ms.map Message.bare).map Message.layout = ms.map Message.layout := by
    rw [List.map_map]
    exact List.map_congr_left fun m _ => m.layout_bare
  have hmessages : dialect'.messages.map Message.bare = dialect.messages.map Message.bare :=
    congrArg Dialect.messages h
  rw [← hbare dialect'.messages, hmessages, hbare]

/-- An unknown element in the content of a field, a parameter or a deprecation: the definition is
parsed to the same dialect, but for space at the ends of texts and for the deprecations of enums and
entries, and to messages of the same layout. Where the element parts a text, the definition may be
refused instead, as the text is then there twice. -/
theorem parse_inserted {before text after : List Char} {o : Open} {tag : Tag}
    (h : Insertion before text after o tag) {dialect : Dialect}
    (hparse : Dialect.parse (String.ofList (before ++ after)) = .ok dialect) :
    (∃ dialect', Dialect.parse (String.ofList (before ++ (text ++ after))) = .ok dialect' ∧
      dialect'.bare = dialect.bare ∧
      dialect'.messages.map Message.layout = dialect.messages.map Message.layout) ∨
    PartsText before after o ∧
      Dialect.parse (String.ofList (before ++ (text ++ after))) =
        .error (.markup (.duplicate textKey)) := by
  obtain ⟨d, hd, hcheck⟩ := bind_eq_ok.1 hparse
  rw [mapError_eq_ok, Document.parse, String.toList_ofList] at hd
  have hedited : Document.parse (String.ofList (before ++ (text ++ after))) =
      Document.ofContent (Content.ofDocument (before ++ (text ++ after))) := by
    rw [Document.parse, String.toList_ofList]
  rw [Dialect.parse, hedited]
  rcases keeps_document h.patched d hd with ⟨d', hd', hbare⟩ | ⟨hparts, herror⟩
  · have hchecks : d'.check.map Dialect.bare = .ok dialect.bare := by
      rw [← Document.check_bare, hbare, Document.check_bare, hcheck]
      rfl
    obtain ⟨dialect', hcheck', hsame⟩ := map_eq_ok.1 hchecks
    rw [hd', ok_mapError, ok_bind]
    exact .inl ⟨dialect', hcheck', hsame, layouts_of_bare hsame⟩
  · rw [herror, error_mapError, error_bind]
    exact .inr ⟨hparts, rfl⟩

section Concrete

instance decidableShows (c : Content) : Decidable c.Shows :=
  match c with
  | .text (.ok s) _ => inferInstanceAs (Decidable (¬ s.all isSpace = true))
  | .text (.error _) _ | .element _ _ _ | .closed _ | .ended | .failed _ => isFalse id

instance decidablePartsText (before after : List Char) (o : Open) :
    Decidable (PartsText before after o) :=
  inferInstanceAs (Decidable (_ ∧ _ ∧ _))

def inField : Open := ("field".toList, []) :: inMessage

def untilText : String :=
  "<mavlink><messages><message id='1' name='M'><field type='char' name='x'>"

def afterText : String := "</field></message></messages></mavlink>"

theorem insertion_inField {front : String} (back : String)
    (reach : Reads [] (unmarked (untilText ++ front).toList) (eventsOf (untilText ++ front).toList)
      inField)
    (behind : (eventsOf (untilText ++ front).toList).head?.any Markup.Event.isText = true) :
    Insertion (untilText ++ front).toList "<x/>".toList (back ++ afterText).toList inField
      (Tag.ofText [] "x".toList) where
  reach := reach
  place := by decide +kernel
  element := ⟨_, isElement_texts [] [] (by decide +kernel) (by decide +kernel) (by decide +kernel),
    nofun⟩
  clean := by decide +kernel
  unknown := by decide +kernel
  marked := by
    intro record earlier hevents
    rw [hevents] at behind
    cases behind

theorem parse_inserted_behind :
    Insertion (untilText ++ "t").toList "<x/>".toList ("" ++ afterText).toList inField
        (Tag.ofText [] "x".toList) ∧
      ∃ dialect dialect', Dialect.parse (untilText ++ "t" ++ afterText) = .ok dialect ∧
        Dialect.parse (untilText ++ "t<x/>" ++ afterText) = .ok dialect' ∧
        dialect'.bare = dialect.bare ∧
        dialect'.messages.map Message.layout = dialect.messages.map Message.layout := by
  have insertion : Insertion (untilText ++ "t").toList "<x/>".toList ("" ++ afterText).toList inField
      (Tag.ofText [] "x".toList) :=
    insertion_inField "" (by decide +kernel) (by decide +kernel)
  have unparted : ¬ PartsText (untilText ++ "t").toList ("" ++ afterText).toList inField := by
    decide +kernel
  have hs : String.ofList ((untilText ++ "t").toList ++ ("" ++ afterText).toList) =
      untilText ++ "t" ++ afterText := by decide +kernel
  have ht : String.ofList ((untilText ++ "t").toList ++ ("<x/>".toList ++ ("" ++ afterText).toList)) =
      untilText ++ "t<x/>" ++ afterText := by decide +kernel
  obtain ⟨dialect, hparse⟩ := exists_ok
    (show (Dialect.parse (untilText ++ "t" ++ afterText)).isOk = true by decide +kernel)
  refine ⟨insertion, dialect, ?_⟩
  rw [← hs] at hparse ⊢
  obtain ⟨dialect', hparse', hsame⟩ :=
    (parse_inserted insertion hparse).resolve_right fun h => unparted h.1
  exact ⟨dialect', hparse, ht ▸ hparse', hsame⟩

def boundFurtherIn (more : String) : String :=
  "<mavlink><enums><enum name='E'><entry name='X'><deprecated p:nil='true'>" ++ more ++
    "<b xmlns:p='http://www.w3.org/2001/XMLSchema-instance'/>a<c/>b</deprecated></entry></enum>" ++
      "</enums></mavlink>"

/-- An empty element that parts the text of a field: the definition is refused. So it is when the
element comes first in a deprecation whose mark of absence would count further in. -/
theorem parse_inserted_refused :
    (Insertion (untilText ++ "te").toList "<x/>".toList ("xt" ++ afterText).toList inField
        (Tag.ofText [] "x".toList) ∧
      (Dialect.parse (untilText ++ "text" ++ afterText)).isOk = true ∧
      Dialect.parse (untilText ++ "te<x/>xt" ++ afterText) =
        .error (.markup (.duplicate textKey))) ∧
    (Dialect.parse (boundFurtherIn "")).isOk = true ∧
    Dialect.parse (boundFurtherIn "<x/>") = .error (.markup (.duplicate textKey)) :=
  ⟨⟨insertion_inField "xt" (by decide +kernel) (by decide +kernel), by decide +kernel,
    by decide +kernel⟩, by decide +kernel, by decide +kernel⟩

end Concrete

end DialectBindings.Definition
