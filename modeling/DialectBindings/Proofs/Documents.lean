import DialectBindings.Definition.Parse
import DialectBindings.Proofs.Items

/-!
# Definitions that are read alike

From the entries of an enum to the whole document: what is read from a content is read from every
content alike. Only items of messages that do not count may differ.
-/

set_option autoImplicit false

namespace DialectBindings.Definition
open Markup Results

section Records
variable {α β : Type} {schema : Schema α} {keyOf : α → String} {ρ : Role}

/-- What is read from an element that is in order is read from every element alike. -/
def ReadAlike (ρ : Role) (W : β → β → Prop) (read : Place → Source → Except Markup.Fault β) :
    Prop :=
  ∀ (tag tag' : Tag) (inner inner' : Content), Retagged ρ tag tag' → Alike ρ inner inner' →
    inner.Sound → (ρ.minds = true → tag.Unmarked) → Ordinary ρ inner → ∀ place place' b,
    read place (.element tag inner) = .ok b →
      ∃ b', read place' (.element tag' inner') = .ok b' ∧ W b b'

theorem record_alike (hk : schema.Keyed keyOf) (hρ : ρ.isOpen = true) (fits : Fits ρ schema)
    (steady : schema.Steady) {V : α → α → Prop} (hV : ∀ v, V v v)
    (follows : ∀ k slot, schema.slot k = some slot →
      ∀ e e', e.1.key = k → Twin ρ e e' → Follows ρ V slot e e')
    {W : β → β → Prop} {build : List α → Except Markup.Fault β}
    (hbuild : ∀ vs vs', (∀ k, List.Forall₂ V (vs.filter (keyOf · == k))
      (vs'.filter (keyOf · == k))) → ∀ b, build vs = .ok b → ∃ b', build vs' = .ok b' ∧ W b b') :
    ReadAlike ρ W (schema.read build) := by
  intro tag tag' inner inner' tags inside hs hu ho place place' b h
  obtain ⟨seen, found, given, hat, hgiven, hb⟩ := Schema.read_ok h
  have hat' : schema.attributes ⟨tag', place'.ahead⟩ [] tag'.attributes = .ok (seen, found) := by
    rw [attributes_widened fits.unknown steady tags.attributes ⟨tag, place.ahead⟩, hat]
  have hgiven' : ∃ given', schema.children ⟨tag', place'.ahead⟩ seen inner' = .ok given' ∧
      ∀ k, List.Forall₂ V (given.filter (keyOf · == k)) (given'.filter (keyOf · == k)) :=
    children_alike hk hρ fits follows hu (fun hm => tags.unmarked (hu hm)) hs ho inside hgiven
  obtain ⟨given', hgiven', hV'⟩ := hgiven'
  have happend : ∀ k, List.Forall₂ V ((found ++ given).filter (keyOf · == k))
      ((found ++ given').filter (keyOf · == k)) := by
    intro k
    rw [List.filter_append, List.filter_append]
    exact List.rel_append (List.forall₂_same.2 fun v _ => hV v) (hV' k)
  obtain ⟨b', hb', hW⟩ := hbuild _ _ happend b hb
  exact ⟨b', (Schema.read_eq hat' hgiven').trans hb', hW⟩

theorem sameByKey_of_forall₂ {vs vs' : List α}
    (h : ∀ k, List.Forall₂ Eq (vs.filter (keyOf · == k)) (vs'.filter (keyOf · == k))) :
    SameByKey keyOf vs vs' := by
  intro k
  have hk := h k
  rwa [List.forall₂_eq_eq_eq] at hk

theorem leaf_alike (hρ : ρ.isLeaf = true) (fits : Fits ρ schema) (flat : schema.Flat)
    (build : List α → Except Markup.Fault β) : ReadAlike ρ Eq (schema.read build) := by
  intro tag tag' inner inner' tags inside _ _ _ place place' b h
  exact ⟨b, read_flat fits flat tags (inside.closed hρ) h, rfl⟩

theorem record_same (hk : schema.Keyed keyOf) (hρ : ρ.isOpen = true) (fits : Fits ρ schema)
    (steady : schema.Steady) (follows : ∀ k slot, schema.slot k = some slot →
      ∀ e e', e.1.key = k → Twin ρ e e' → Follows ρ Eq slot e e')
    {build : List α → Except Markup.Fault β}
    (hbuild : ∀ {vs ws}, SameByKey keyOf vs ws → build vs = build ws) :
    ReadAlike ρ Eq (schema.read build) := by
  apply record_alike hk hρ fits steady (fun _ => rfl) follows
  intro vs vs' h b hb
  exact ⟨b, by rw [← hbuild (sameByKey_of_forall₂ h), hb], rfl⟩

end Records

section Slots
variable {α β : Type} {ρ : Role} {e e' : Tag × Content}

theorem Twin.same (h : Twin ρ e e') (hl : (ρ.child e.1.key).isLeaf = true) :
    (Source.element e.1 e.2).Same (.element e'.1 e'.2) :=
  .element h.tags.name (h.inside.closed hl)

theorem follows_value (ρ : Role) {read : Source → Except Markup.Fault β} (part : β → α)
    (repeated : Bool)
    (hread : read (.element e'.1 e'.2) = read (.element e.1 e.2)) :
    Follows ρ Eq ⟨fun _ s => (read s).map part, repeated⟩ e e' := by
  intro place place' _ _ v hv
  refine ⟨v, ?_, rfl⟩
  show (read (.element e'.1 e'.2)).map part = .ok v
  rw [hread]
  exact hv

theorem Twin.readOptional (h : Twin ρ e e') {read read' : Source → Except Markup.Fault β}
    (hm : ρ.minds = true) (hh : ρ.heeds e.1.key = true) {place place' : Place}
    (hp : ρ.minds = true → place.parent.Unmarked) (hp' : ρ.minds = true → place'.parent.Unmarked)
    (hread : ∀ b, read (.element e.1 e.2) = .ok b → read' (.element e'.1 e'.2) = .ok b)
    {b : Option β} (hb : (Source.element e.1 e.2).readOptional read place = .ok b) :
    (Source.element e'.1 e'.2).readOptional read' place' = .ok b := by
  rw [readOptional_unmarked read e.2 (hp hm) (h.unmarked hh)] at hb
  rw [readOptional_unmarked read' e'.2 (hp' hm) (h.tags.unmarked (h.unmarked hh))]
  obtain ⟨a, ha, rfl⟩ := map_eq_ok.1 hb
  rw [hread a ha]
  rfl

theorem follows_optional (h : Twin ρ e e') (hm : ρ.minds = true) (hh : ρ.heeds e.1.key = true)
    {read : Source → Except Markup.Fault β}
    (part : Option β → α) (hread : read (.element e'.1 e'.2) = read (.element e.1 e.2)) :
    Follows ρ Eq (optional part read) e e' := by
  intro place place' hp hp' v hv
  obtain ⟨b, hb, rfl⟩ := map_eq_ok.1 hv
  refine ⟨part b, ?_, rfl⟩
  show ((Source.element e'.1 e'.2).readOptional read place').map part = _
  rw [h.readOptional hm hh hp hp' (fun b hb => hread.trans hb) hb]
  rfl

theorem deprecation_alike : ReadAlike .deprecation Eq DeprecationPart.read :=
  leaf_alike rfl (fun _ => rfl) deprecation_flat DeprecationPart.build

theorem follows_deprecated (h : Twin ρ e e') (hm : ρ.minds = true)
    (hh : ρ.heeds e.1.key = true) (hρ : ρ.child e.1.key = .deprecation)
    (part : Option Deprecation → α) : Follows ρ Eq
      ⟨fun place s => (s.readOptional (DeprecationPart.read place) place).map part, false⟩ e e' := by
  intro place place' hp hp' v hv
  obtain ⟨b, hb, rfl⟩ := map_eq_ok.1 hv
  have hread : ∀ d, DeprecationPart.read place (.element e.1 e.2) = .ok d →
      DeprecationPart.read place' (.element e'.1 e'.2) = .ok d := by
    intro d hd
    obtain ⟨d', hd', rfl⟩ := deprecation_alike _ _ _ _ (hρ ▸ h.tags) (hρ ▸ h.inside) h.sound
      nofun (hρ ▸ h.ordinary) place place' d hd
    exact hd'
  refine ⟨part b, ?_, rfl⟩
  show ((Source.element e'.1 e'.2).readOptional (DeprecationPart.read place') place').map part = _
  rw [h.readOptional hm hh hp hp' hread hb]
  rfl

theorem follows_record (h : Twin ρ e e') {σ : Role} (hρ : ρ.child e.1.key = σ) {W : β → β → Prop}
    {read : Place → Source → Except Markup.Fault β} (hread : ReadAlike σ W read) {V : α → α → Prop}
    {part : β → α} (hV : ∀ b b', W b b' → V (part b) (part b')) (repeated : Bool) :
    Follows ρ V ⟨fun place s => (read place s).map part, repeated⟩ e e' := by
  intro place place' _ _ v hv
  obtain ⟨b, hb, rfl⟩ := map_eq_ok.1 hv
  subst hρ
  have hmark : (ρ.child e.1.key).minds = true → e.1.Unmarked := by
    intro hm
    exact h.unmarked (Bool.or_eq_true_iff.2 (.inr hm))
  obtain ⟨b', hb', hW⟩ :=
    hread _ _ _ _ h.tags h.inside h.sound hmark h.ordinary place place' b hb
  refine ⟨part b', ?_, hV b b' hW⟩
  show (read place' (.element e'.1 e'.2)).map part = _
  rw [hb']
  rfl

end Slots

theorem entry_steady : Schema.Steady ⟨EntryPart.slot, none⟩ := by
  intro k slot hs place place' raw
  simp only [EntryPart.slot] at hs
  split at hs <;> cases hs <;> rfl

theorem param_alike : ReadAlike .param Eq ParamPart.read :=
  leaf_alike rfl (fun _ => rfl) param_flat ParamPart.build

theorem entry_alike : ReadAlike .entry Eq EntryPart.read := by
  apply record_same EntryPart.keyed rfl (fun _ => rfl) entry_steady ?_ EntryPart.build_sameByKey
  intro k slot hs e e' hkey ht
  have hsame := ht.same (Role.child_entry _)
  simp only [EntryPart.slot] at hs
  split at hs <;> cases hs
  · exact follows_value _ _ _ hsame.readText
  · exact follows_value _ _ _ hsame.readText
  · exact follows_value _ _ _ hsame.readText
  · exact follows_record ht (by rw [hkey]; rfl) param_alike (fun _ _ => congrArg _) true
  · exact follows_deprecated ht rfl (by rw [hkey]; rfl) (by rw [hkey]; rfl) _
  · exact follows_optional ht rfl (by rw [hkey]; rfl) _ hsame.readPresence

theorem enum_steady : Schema.Steady ⟨EnumPart.slot, none⟩ := by
  intro k slot hs place place' raw
  simp only [EnumPart.slot] at hs
  split at hs <;> cases hs <;> rfl

theorem enum_alike : ReadAlike .enum Eq EnumPart.read := by
  apply record_same EnumPart.keyed rfl (fun _ => rfl) enum_steady ?_ EnumPart.build_sameByKey
  intro k slot hs e e' hkey ht
  simp only [EnumPart.slot] at hs
  split at hs <;> cases hs
  · exact follows_value _ _ _ (ht.same (by rw [hkey]; rfl)).readText
  · exact follows_value _ _ _ (ht.same (by rw [hkey]; rfl)).readBool
  · exact follows_value _ _ _ (ht.same (by rw [hkey]; rfl)).readText
  · exact follows_deprecated ht rfl (by rw [hkey]; rfl) (by rw [hkey]; rfl) _
  · exact follows_record ht (by rw [hkey]; rfl) entry_alike (fun _ _ => congrArg _) true

theorem listed_steady {α : Type} {key : String} {read : Place → Source → Except Markup.Fault α}
    (h : ∀ place place' raw, read place' (.attribute raw) = read place (.attribute raw)) :
    (listed key read).Steady := by
  intro k slot hs place place' raw
  simp only [listed] at hs
  split at hs <;> cases hs
  exact h place place' raw

theorem listed_alike {β : Type} {ρ σ : Role} {key : String} (htext : key ≠ textKey)
    (hρ : ρ.isOpen = true) (knows : ∀ k, ρ.knows k = decide (k = key)) (hσ : ρ.child key = σ)
    {W : β → β → Prop} (hW : ∀ b, W b b) {read : Place → Source → Except Markup.Fault β}
    (steady : ∀ place place' raw, read place' (.attribute raw) = read place (.attribute raw))
    (h : ReadAlike σ W read) :
    ReadAlike ρ (List.Forall₂ W) (Schema.read (listed key read) .ok) := by
  have fits : Fits ρ (listed key read) := by
    intro k
    rw [knows]
    by_cases hk : k = key
    · simp [listed, hk]
    · simp [listed, hk]
  apply record_alike (listed_keyed htext read) hρ fits (listed_steady steady) hW
  · intro k slot hs e e' hkey ht place place' _ _ v hv
    simp only [listed] at hs
    split at hs <;> cases hs
    rename_i hk
    have hrole : ρ.child e.1.key = σ := by rw [hkey, hk, hσ]
    have hmark : σ.minds = true → e.1.Unmarked := by
      intro hm
      exact ht.unmarked (Bool.or_eq_true_iff.2 (.inr (by rw [hrole, hm])))
    exact h _ _ _ _ (hrole ▸ ht.tags) (hrole ▸ ht.inside) ht.sound hmark
      (hrole ▸ ht.ordinary) place place' v hv
  · intro vs vs' hall b hb
    cases hb
    refine ⟨vs', rfl, ?_⟩
    simpa using hall key

theorem enums_alike : ReadAlike .enums Eq readEnums := by
  intro tag tag' inner inner' tags inside hs hu ho place place' b hb
  rw [readEnums_eq] at hb ⊢
  have hread : ReadAlike .enums (List.Forall₂ Eq) (Schema.read (listed "enum" EnumPart.read) .ok) :=
    listed_alike (by simp [textKey]) rfl (fun _ => rfl) (by rfl) (fun _ => rfl) (fun _ _ _ => rfl)
    enum_alike
  obtain ⟨b', hb', hall⟩ := hread tag tag' inner inner' tags inside hs hu ho place place' b hb
  rw [List.forall₂_eq_eq_eq] at hall
  exact ⟨b', hb', hall⟩

/-! ## Messages -/

def MessageDecl.essential (m : MessageDecl) : MessageDecl :=
  { m with items := m.items.filter MessageItem.counts }

def Document.essential (d : Document) : Document :=
  { d with messages := d.messages.map MessageDecl.essential }

def MessageDecl.Agrees (m m' : MessageDecl) : Prop := m'.essential = m.essential

theorem MessageDecl.Agrees.refl (m : MessageDecl) : m.Agrees m := rfl

/-- Documents with messages that agree, all else being the same. -/
def Document.Agrees (d d' : Document) : Prop := d'.essential = d.essential

theorem message_steady : Schema.Steady ⟨MessagePart.slot, some MessagePart.body⟩ := by
  intro k slot hs place place' raw
  simp only [MessagePart.slot] at hs
  split at hs <;> cases hs <;> rfl

theorem mapM_map {α β γ ε : Type} (f : α → Except ε β) (g : β → γ) (as : List α) :
    as.mapM (fun a => (f a).map g) = (as.mapM f).map (List.map g) := by
  induction as with
  | nil => rfl
  | cons a as ih =>
    rw [List.mapM_cons, List.mapM_cons, ih]
    cases f a with
    | error fault => rfl
    | ok b => cases as.mapM f <;> rfl

theorem message_children {place : Place} {seen : List String} (hseen : bodyKey ∉ seen)
    {c : Content} (h : c.Sound) (hn : ∀ e ∈ c.elements, MessagePart.slot e.1.key = none)
    {vs : List MessagePart} :
    Schema.children ⟨MessagePart.slot, some MessagePart.body⟩ place seen c = .ok vs ↔
      ∃ items, ItemsOf place c items ∧ vs = items.map .item := by
  rw [children_body rfl hseen h hn]
  show (List.mapM (fun s => (MessageItem.read place s).map MessagePart.item) _ = _) ↔ _
  rw [mapM_map, map_eq_ok]
  simp only [mapM_eq_ok]
  constructor
  · rintro ⟨items, hi, rfl⟩
    exact ⟨items, hi, rfl⟩
  · rintro ⟨items, hi, rfl⟩
    exact ⟨items, hi, rfl⟩

theorem attributes_seen {α : Type} (schema : Schema α) {place : Place} {seen met : List String}
    {as : List (Except Markup.Fault Attribute)} {vs : List α}
    (h : schema.attributes place seen as = .ok (met, vs)) (hs : bodyKey ∉ seen) :
    bodyKey ∉ met := by
  induction as generalizing seen vs with
  | nil =>
    cases h
    exact hs
  | cons a as ih =>
    rw [Schema.attributes] at h
    obtain ⟨a, _, h⟩ := bind_eq_ok.1 h
    split at h
    · exact ih h hs
    · obtain ⟨v, _, h⟩ := bind_eq_ok.1 h
      obtain ⟨⟨met', vs'⟩, hrest, he⟩ := bind_eq_ok.1 h
      cases he
      apply ih hrest
      intro hmem
      rcases List.mem_cons.1 hmem with hkey | hmem
      · have hchars := congrArg String.toList hkey
        simp [bodyKey, Attribute.key] at hchars
      · exact hs hmem

theorem tags_erase (c : Content) : c.erase.elements.map (·.1) = c.elements.map (·.1) := by
  induction c with
  | text value rest ih => exact ih
  | element tag inner rest _ ih =>
    simp only [Content.erase, Content.elements, List.map_cons, ih]
  | _ => rfl

theorem Alike.forall_key {ρ : Role} {c c' : Content} (h : Alike ρ c c') (hρ : ρ.isOpen = true)
    {Q : String → Prop} (hQ : ∀ k, ρ.knows k = false → Q k) (hall : ∀ e ∈ c.elements, Q e.1.key) :
    ∀ e ∈ c'.elements, Q e.1.key := by
  induction h with
  | @same ρ c c' h =>
    have htags : c.elements.map (·.1) = c'.elements.map (·.1) := by
      rw [← tags_erase, h, tags_erase]
    intro e' he'
    have hmem := List.mem_map_of_mem (f := (·.1)) he'
    rw [← htags] at hmem
    obtain ⟨e, he, htag⟩ := List.mem_map.1 hmem
    exact htag ▸ hall e he
  | text v h ih =>
    rw [Content.elements_prepend] at hall ⊢
    exact ih hρ hQ hall
  | less ho s h ih =>
    rw [Content.elements_prepend] at hall
    exact ih hρ hQ hall
  | more ho s h ih =>
    rw [Content.elements_prepend]
    exact ih hρ hQ hall
  | element hl tags inside h _ ih =>
    obtain ⟨hfirst, hmore⟩ := List.forall_mem_cons.1 hall
    exact List.forall_mem_cons.2 ⟨tags.key ▸ hfirst, ih hρ hQ hmore⟩
  | insert ho unknown hf hs h ih =>
    exact List.forall_mem_cons.2 ⟨hQ _ unknown, ih hρ hQ hall⟩
  | swap hu names hi hj vs h ih =>
    simp only [Content.elements, Content.elements_prependAll, List.forall_mem_cons] at hall ⊢
    exact ⟨hall.2.1, hall.1, ih hρ hQ hall.2.2⟩

theorem message_build {found : List MessagePart} {items items' : List MessageItem}
    (h : items'.filter MessageItem.counts = items.filter MessageItem.counts) {m : MessageDecl}
    (hm : MessagePart.build (found ++ items.map .item) = .ok m) :
    ∃ m', MessagePart.build (found ++ items'.map .item) = .ok m' ∧ m.Agrees m' := by
  rw [MessagePart.build_items] at hm ⊢
  obtain ⟨m₀, hm₀, rfl⟩ := map_eq_ok.1 hm
  refine ⟨{ m₀ with items := m₀.items ++ items' }, by rw [hm₀]; rfl, ?_⟩
  simp only [MessageDecl.Agrees, MessageDecl.essential, List.filter_append, h]

theorem message_alike : ReadAlike .message MessageDecl.Agrees MessagePart.read := by
  intro tag tag' inner inner' tags inside hs hu ho place place' m h
  obtain ⟨seen, found, given, hat, hgiven, hm⟩ := Schema.read_ok h
  have hseen : bodyKey ∉ seen := attributes_seen _ hat nofun
  have hnone : ∀ e ∈ inner.elements, MessagePart.slot e.1.key = none :=
    fun e he => (ho.element e he).2.2 rfl
  have hunknown : ∀ k, Role.message.knows k = false → MessagePart.slot k = none := by
    intro k hk
    simpa using (Bool.or_eq_false_iff.1 hk).1
  have hnone' : ∀ e ∈ inner'.elements, MessagePart.slot e.1.key = none :=
    inside.forall_key (Q := fun k => MessagePart.slot k = none) rfl hunknown hnone
  obtain ⟨items, hitems, rfl⟩ := (message_children hseen hs hnone).1 hgiven
  obtain ⟨items', hitems', hsame⟩ := items_alike inside hs ⟨tag', place'.ahead⟩ hitems
  have hgiven' := (message_children hseen (inside.sound hs) hnone').2 ⟨items', hitems', rfl⟩
  have hat' : Schema.attributes ⟨MessagePart.slot, some MessagePart.body⟩ ⟨tag', place'.ahead⟩ []
      tag'.attributes = .ok (seen, found) := by
    rw [attributes_widened hunknown message_steady tags.attributes ⟨tag, place.ahead⟩, hat]
  obtain ⟨m', hm', he⟩ := message_build hsame hm
  exact ⟨m', (Schema.read_eq hat' hgiven').trans hm', he⟩

theorem messages_alike : ReadAlike .messages (List.Forall₂ MessageDecl.Agrees) readMessages := by
  rw [readMessages_eq]
  exact listed_alike (by simp [textKey]) rfl (fun _ => rfl) (by rfl) MessageDecl.Agrees.refl
    (fun _ _ _ => rfl) message_alike

/-! ## The document -/

def DocumentPart.essential : DocumentPart → DocumentPart
  | .messages ms => .messages (ms.map MessageDecl.essential)
  | part => part

theorem DocumentPart.key_essential (part : DocumentPart) : part.essential.key = part.key := by
  cases part <;> rfl

theorem DocumentPart.build_essential (parts : List DocumentPart) :
    DocumentPart.build (parts.map essential) =
      (DocumentPart.build parts).map Document.essential := by
  unfold DocumentPart.build
  rw [filterMap_kept (by intro p; cases p <;> rfl), findSome?_kept (by intro p; cases p <;> rfl),
    findSome?_kept (by intro p; cases p <;> rfl), findSome?_kept (by intro p; cases p <;> rfl),
    findSome?_changed (List.map MessageDecl.essential) (by intro p; cases p <;> rfl), getD_map_nil]
  rfl

theorem root_steady : Schema.Steady ⟨DocumentPart.slot, none⟩ := by
  intro k slot hs place place' raw
  simp only [DocumentPart.slot] at hs
  split at hs <;> cases hs <;> rfl

theorem Follows.mono {α : Type} {ρ : Role} {V V' : α → α → Prop} {slot : Slot α}
    {e e' : Tag × Content} (h : Follows ρ V slot e e') (hV : ∀ a b, V a b → V' a b) :
    Follows ρ V' slot e e' := by
  intro place place' hp hp' v hv
  obtain ⟨v', hv', hvv⟩ := h place place' hp hp' v hv
  exact ⟨v', hv', hV v v' hvv⟩

theorem root_alike : ReadAlike .root Document.Agrees
    (Schema.read ⟨DocumentPart.slot, none⟩ DocumentPart.build) := by
  have equal : ∀ p p' : DocumentPart, p = p' → p'.essential = p.essential :=
    fun _ _ h => congrArg _ h.symm
  apply record_alike DocumentPart.keyed rfl (fun _ => rfl) root_steady
    (V := fun p p' => p'.essential = p.essential) (fun _ => rfl)
  · intro k slot hs e e' hkey ht
    simp only [DocumentPart.slot] at hs
    split at hs <;> cases hs
    · exact (follows_value _ _ _ (ht.same (by rw [hkey]; rfl)).readText).mono equal
    · have hsame := (ht.same (by rw [hkey]; rfl)).readWord
      exact (follows_optional ht rfl (by rw [hkey]; rfl) _ hsame).mono equal
    · have hsame := (ht.same (by rw [hkey]; rfl)).readWord
      exact (follows_optional ht rfl (by rw [hkey]; rfl) _ hsame).mono equal
    · have henums := follows_record ht (by rw [hkey]; rfl) enums_alike
        (fun _ _ => congrArg DocumentPart.enums) false
      exact henums.mono equal
    · apply follows_record ht (by rw [hkey]; rfl) messages_alike ?_ false
      intro ms ms' hall
      simp only [DocumentPart.essential, DocumentPart.messages.injEq]
      have hmaps : List.Forall₂ Eq (ms'.map MessageDecl.essential) (ms.map MessageDecl.essential) := by
        rw [List.forall₂_map_left_iff, List.forall₂_map_right_iff]
        exact hall.flip
      rwa [List.forall₂_eq_eq_eq] at hmaps
  · intro vs vs' hall d hd
    have hsame : SameByKey DocumentPart.key (vs'.map DocumentPart.essential)
        (vs.map DocumentPart.essential) := by
      intro k
      have hk : ∀ ps : List DocumentPart, (ps.map DocumentPart.essential).filter (·.key == k) =
          (ps.filter (·.key == k)).map DocumentPart.essential := by
        intro ps
        rw [List.filter_map]
        congr 2
        funext p
        exact congrArg (· == k) p.key_essential
      rw [hk, hk]
      have hmaps : List.Forall₂ Eq ((vs'.filter (·.key == k)).map DocumentPart.essential)
          ((vs.filter (·.key == k)).map DocumentPart.essential) := by
        rw [List.forall₂_map_left_iff, List.forall₂_map_right_iff]
        exact (hall k).flip
      rwa [List.forall₂_eq_eq_eq] at hmaps
    have hbuild := DocumentPart.build_sameByKey hsame
    rw [DocumentPart.build_essential, DocumentPart.build_essential, hd] at hbuild
    obtain ⟨d', hd', he⟩ := map_eq_ok.1 hbuild
    exact ⟨d', hd', he⟩

/-- A document whose definition is sound and in order: nothing in it is refused where it is passed
over, and nothing that counts is marked as absent. -/
def InOrder (c : Content) : Prop :=
  ∀ e, c.elements.head? = some e → e.2.Sound ∧ e.1.Unmarked ∧ Ordinary .root e.2

instance decidableInOrder (c : Content) : Decidable (InOrder c) :=
  match h : c.elements.head? with
  | none => isTrue fun _ he => by rw [h] at he; cases he
  | some e => decidable_of_iff (e.2.Sound ∧ e.1.Unmarked ∧ Ordinary .root e.2)
      ⟨fun hp e' he => by rw [h] at he; cases he; exact hp, fun hp => hp e h⟩

theorem ofContent_text {v : Except Markup.Fault (List Char)} {rest : Content} {d : Document} :
    Document.ofContent (.text v rest) = .ok d ↔
      (∃ s, v = .ok s ∧ s.all Text.isSpace = true) ∧ Document.ofContent rest = .ok d := by
  rw [Document.ofContent, bind_eq_ok]
  constructor
  · rintro ⟨s, rfl, h⟩
    split at h
    · rename_i hs
      exact ⟨⟨s, rfl, hs⟩, h⟩
    · cases h
  · rintro ⟨⟨s, rfl, hs⟩, h⟩
    exact ⟨s, rfl, by rw [if_pos hs, h]⟩

theorem ofContent_prepend {v : Except Markup.Fault (List Char)} {c : Content} {d : Document} :
    Document.ofContent (c.prepend v) = .ok d ↔
      (∃ s, v = .ok s ∧ s.all Text.isSpace = true) ∧ Document.ofContent c = .ok d := by
  cases c with
  | text after rest =>
    rw [Content.prepend, ofContent_text, ofContent_text]
    cases v with
    | error fault => simp [error_bind]
    | ok s =>
      cases after with
      | error fault => simp [ok_bind]
      | ok t =>
        simp only [ok_bind, pure, Except.pure, Except.ok.injEq, exists_eq_left', List.all_append,
          Bool.and_eq_true]
        tauto
  | _ => exact ofContent_text

theorem ofContent_element {tag tag' : Tag} {inner inner' rest rest' : Content}
    (tags : Retagged .root tag tag') (inside : Alike .root inner inner')
    (ho : InOrder (.element tag inner rest)) {d : Document}
    (h : Document.ofContent (.element tag inner rest) = .ok d) :
    ∃ d', Document.ofContent (.element tag' inner' rest') = .ok d' ∧ d.Agrees d' := by
  obtain ⟨hs, hu, hord⟩ := ho _ rfl
  obtain ⟨u, hcheck, h⟩ := bind_eq_ok.1 h
  have hcheck' : tag'.check = .ok () := by
    apply Content.check_sound
    apply tags.sound
    unfold Tag.check at hcheck
    split at hcheck
    · cases hcheck
    · assumption
  have hread := root_alike tag tag' inner inner' tags inside hs (fun _ => hu) hord ⟨tag, none⟩
    ⟨tag', none⟩ d h
  obtain ⟨d', hd', he⟩ := hread
  refine ⟨d', ?_, he⟩
  show (tag'.check >>= fun _ => _) = _
  rw [hcheck', ok_bind]
  exact hd'

theorem ofContent_erase {c c' : Content} (h : c.erase = c'.erase) (ho : InOrder c) {d : Document}
    (hd : Document.ofContent c = .ok d) :
    ∃ d', Document.ofContent c' = .ok d' ∧ d.Agrees d' := by
  induction c generalizing c' with
  | text value rest ih =>
    cases c' with
    | text value' rest' =>
      simp only [Content.erase, Content.text.injEq] at h
      obtain ⟨rfl, hrest⟩ := h
      obtain ⟨hblank, hd⟩ := ofContent_text.1 hd
      obtain ⟨d', hd', he⟩ := ih hrest ho hd
      exact ⟨d', ofContent_text.2 ⟨hblank, hd'⟩, he⟩
    | _ => cases h
  | element tag inner rest _ _ =>
    cases c' with
    | element tag' inner' rest' =>
      simp only [Content.erase, Content.element.injEq] at h
      obtain ⟨rfl, hinner, _⟩ := h
      exact ofContent_element (.refl _ _) (.same _ hinner) ho hd
    | _ => cases h
  | _ => cases hd

/-- A document is read from every content alike. -/
theorem ofContent_alike {c c' : Content} (h : Alike .document c c') (ho : InOrder c) {d : Document}
    (hd : Document.ofContent c = .ok d) :
    ∃ d', Document.ofContent c' = .ok d' ∧ d.Agrees d' := by
  generalize hρ : Role.document = ρ at h
  induction h with
  | same ρ h => exact ofContent_erase h ho hd
  | text v h ih => 
    obtain ⟨hblank, hd⟩ := ofContent_prepend.1 hd
    have hord := ho
    unfold InOrder at hord
    rw [Content.elements_prepend] at hord
    obtain ⟨d', hd', he⟩ := ih hord hd hρ
    exact ⟨d', ofContent_prepend.2 ⟨hblank, hd'⟩, he⟩
  | element hl tags inside h =>
    subst hρ
    exact ofContent_element tags inside ho hd
  | less hρ' | more hρ' | insert hρ' =>
    subst hρ
    cases hρ'
  | swap hρ' =>
    subst hρ
    cases hρ'

/-! ## What is checked -/

theorem addItem_other {state : Message × Bool} {i : MessageItem} (h : ¬ i.counts = true) :
    addItem state i = .ok state := by
  cases i <;> first | rfl | exact absurd rfl h

theorem foldlM_counts (items : List MessageItem) (state : Message × Bool) :
    (items.filter MessageItem.counts).foldlM addItem state = items.foldlM addItem state := by
  induction items generalizing state with
  | nil => rfl
  | cons i items ih =>
    by_cases hi : i.counts = true
    · rw [List.filter_cons, if_pos hi, List.foldlM_cons, List.foldlM_cons]
      simp only [ih]
    · rw [List.filter_cons, if_neg hi, List.foldlM_cons, addItem_other hi, ih]
      rfl

theorem checkMessage_essential (m : MessageDecl) : checkMessage m.essential = checkMessage m := by
  simp only [checkMessage, MessageDecl.essential, foldlM_counts]

theorem checkMessages_essential (before : List Message) (ms : List MessageDecl) :
    checkMessages before (ms.map MessageDecl.essential) = checkMessages before ms := by
  induction ms generalizing before with
  | nil => rfl
  | cons m ms ih => simp only [List.map_cons, checkMessages, checkMessage_essential, ih]

theorem Document.Agrees.check {d d' : Document} (h : d.Agrees d') : d'.check = d.check := by
  have hessential : ∀ d : Document, d.essential.check = d.check := by
    intro d
    simp only [Document.check, Document.essential, checkMessages_essential]
  rw [← hessential d', h, hessential d]

end DialectBindings.Definition
