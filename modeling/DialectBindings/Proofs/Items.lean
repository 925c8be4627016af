import DialectBindings.Proofs.Invariance

/-!
# The children of a message

A record that reads all of its children reads them in order, texts among them, from the first
one on that is not blank. The items of a message that count are those of its children with known
names.
-/

set_option autoImplicit false

namespace DialectBindings.Markup
open Text Results

def Content.sources : Content → List Source
  | .text (.ok s) rest => .text s :: rest.sources
  | .text (.error _) rest => rest.sources
  | .element tag inner rest => .element tag inner :: rest.sources
  | _ => []

def Source.isBlank : Source → Bool
  | .text s => s.all isSpace
  | _ => false

theorem mapM_eq_ok {α β ε : Type} {f : α → Except ε β} {as : List α} {bs : List β} :
    as.mapM f = .ok bs ↔ List.Forall₂ (fun a b => f a = .ok b) as bs := by
  induction as generalizing bs with
  | nil => cases bs <;> simp [pure, Except.pure]
  | cons a as ih =>
    rw [List.mapM_cons, bind_eq_ok, List.forall₂_cons_left_iff]
    constructor
    · rintro ⟨b, hb, h⟩
      obtain ⟨bs', hbs, he⟩ := bind_eq_ok.1 h
      cases he
      exact ⟨b, bs', hb, ih.1 hbs, rfl⟩
    · rintro ⟨b, bs', hb, hbs, rfl⟩
      refine ⟨b, hb, ?_⟩
      rw [ih.2 hbs]
      rfl

theorem collect_all {α : Type} {wanted : Tag → Bool} {read : Source → Except Fault α}
    {name : List Char} {c : Content} (h : c.Sound) (hw : ∀ e ∈ c.elements, wanted e.1 = true) :
    collect wanted true read name c =
      (c.sources.mapM read >>= fun as => .ok (as, .closed c.scopeAfter)) := by
  induction c with
  | closed next => rfl
  | ended => exact absurd h id
  | failed fault => exact absurd h id
  | text value rest ih =>
    obtain ⟨⟨s, rfl⟩, hrest⟩ := h
    rw [collect, ok_bind, if_pos rfl, ih hrest hw, Content.sources, List.mapM_cons]
    cases read (.text s) with
    | error fault => rfl
    | ok a => cases rest.sources.mapM read <;> rfl
  | element tag inner rest _ ih =>
    obtain ⟨ht, _, hrest⟩ := h
    obtain ⟨htag, hmore⟩ := List.forall_mem_cons.1 hw
    rw [collect_wanted ht htag, ih hrest hmore, Content.sources, List.mapM_cons]
    cases read (.element tag inner) with
    | error fault => rfl
    | ok a => cases rest.sources.mapM read <;> rfl

section Body
variable {α : Type} {schema : Schema α} {slot : Slot α} {place : Place} {seen : List String}

theorem children_from (hseen : bodyKey ∉ seen) {c rest : Content} {s : Source}
    (hf : c.first? place.parent.name = .ok (some (s, rest)))
    (hs : schema.find s =
      some (bodyKey, slot, some ⟨fun tag => (schema.slot tag.key).isNone, true⟩))
    (h : rest.Sound) (hn : ∀ e ∈ rest.elements, schema.slot e.1.key = none) :
    schema.children place seen c = (s :: rest.sources).mapM (slot.read place) := by
  have hall : ∀ e ∈ rest.elements, (schema.slot e.1.key).isNone = true := by
    intro e he
    rw [hn e he]
    rfl
  rw [Schema.children_first hf, hs]
  simp only [Schema.fill, if_neg hseen]
  rw [collect_all h hall, List.mapM_cons]
  cases slot.read place s with
  | error fault => rfl
  | ok a =>
    cases rest.sources.mapM (slot.read place) with
    | error fault => rfl
    | ok as =>
      simp only [ok_bind, Schema.children_closed, List.append_nil]
      rfl

theorem children_body (hb : schema.body = some slot) (hseen : bodyKey ∉ seen) {c : Content}
    (h : c.Sound) (hn : ∀ e ∈ c.elements, schema.slot e.1.key = none) :
    schema.children place seen c = (c.sources.dropWhile Source.isBlank).mapM (slot.read place) := by
  induction c with
  | closed next => exact Schema.children_closed next
  | ended => exact absurd h id
  | failed fault => exact absurd h id
  | text value rest ih =>
    obtain ⟨⟨s, rfl⟩, hrest⟩ := h
    have hf : (Content.text (.ok s) rest).first? place.parent.name =
        .ok (some (.text s, rest)) := rfl
    by_cases hs : s.all isSpace = true
    · have hblank : (Source.text s).isBlank = true := hs
      have hfind : schema.find (.text s) = none := by
        simp only [Schema.find, hs]
        rfl
      rw [Content.sources, List.dropWhile_cons_of_pos hblank, Schema.children_first hf, hfind]
      exact ih hrest hn
    · have hblank : ¬ (Source.text s).isBlank = true := hs
      have hfind : schema.find (.text s) =
          some (bodyKey, slot, some ⟨fun tag => (schema.slot tag.key).isNone, true⟩) := by
        simp only [Schema.find, if_neg hs, hb]
        rfl
      rw [Content.sources, List.dropWhile_cons_of_neg hblank]
      exact children_from hseen hf hfind hrest hn
  | element tag inner rest _ ih =>
    obtain ⟨ht, _, hrest⟩ := h
    obtain ⟨htag, hmore⟩ := List.forall_mem_cons.1 hn
    have hfind : schema.find (.element tag inner) =
        some (bodyKey, slot, some ⟨fun tag => (schema.slot tag.key).isNone, true⟩) := by
      simp only [Schema.find, htag, hb]
      rfl
    rw [Content.sources, List.dropWhile_cons_of_neg (by exact Bool.false_ne_true)]
    exact children_from hseen (Schema.first_element ht _ _ _) hfind hrest hmore

end Body

end DialectBindings.Markup

namespace DialectBindings.Definition
open Markup Results

def knownItem? : Source → Option (Tag × Content)
  | .element tag inner => if Role.items.contains tag.key then some (tag, inner) else none
  | _ => none

theorem knownItems (c : Content) :
    (c.sources.dropWhile Source.isBlank).filterMap knownItem? =
      c.elements.filter (Role.items.contains ·.1.key) := by
  have hall : c.sources.filterMap knownItem? =
      c.elements.filter (Role.items.contains ·.1.key) := by
    induction c with
    | text value rest ih => cases value <;> exact ih
    | element tag inner rest _ ih =>
      rw [Content.sources, Content.elements, List.filterMap_cons, List.filter_cons, ih, knownItem?]
      by_cases hk : Role.items.contains tag.key = true
      · rw [if_pos hk, if_pos hk]
      · rw [if_neg hk, if_neg hk]
    | closed next => rfl
    | ended => rfl
    | failed fault => rfl
  rw [← hall]
  generalize c.sources = ss
  induction ss with
  | nil => rfl
  | cons s ss ih =>
    by_cases hs : s.isBlank = true
    · rw [List.dropWhile_cons_of_pos hs, ih]
      cases s <;> first | rfl | cases hs
    · rw [List.dropWhile_cons_of_neg hs]

def MessageItem.counts : MessageItem → Bool
  | .other => false
  | _ => true

theorem counts_read {place : Place} {s : Source} {i : MessageItem}
    (h : MessageItem.read place s = .ok i) : i.counts = (knownItem? s).isSome := by
  cases s with
  | element tag inner =>
    simp only [MessageItem.read] at h
    split at h <;> rename_i hkey <;> obtain ⟨b, _, rfl⟩ := map_eq_ok.1 h <;>
      simp_all [knownItem?, Role.items, MessageItem.counts]
  | _ =>
    cases h
    rfl

theorem read_unknown (place : Place) {tag : Tag} {inner : Content}
    (hk : ¬ Role.items.contains tag.key = true) (hi : inner.Sound) :
    MessageItem.read place (.element tag inner) = .ok .other := by
  have hpass : (Source.element tag inner).readPresence = .ok () := hi.passOver tag
  simp only [MessageItem.read]
  split
  all_goals first
    | (rw [hpass]
       rfl)
    | (rename_i hkey
       exact absurd (by rw [hkey]; rfl) hk)

/-- The items of a content, texts being items that do not count. -/
def ItemsOf (place : Place) (c : Content) (items : List MessageItem) : Prop :=
  List.Forall₂ (fun s i => MessageItem.read place s = .ok i)
    (c.sources.dropWhile Source.isBlank) items

theorem ItemsOf.known {place : Place} {c : Content} {items : List MessageItem}
    (h : ItemsOf place c items) :
    List.Forall₂ (fun e i => MessageItem.read place (.element e.1 e.2) = .ok i)
      (c.elements.filter (Role.items.contains ·.1.key)) (items.filter MessageItem.counts) := by
  rw [← knownItems]
  unfold ItemsOf at h
  generalize c.sources.dropWhile Source.isBlank = ss at h ⊢
  induction h with
  | nil => exact .nil
  | @cons s i ss items hi _ ih =>
    have hcounts := counts_read hi
    rw [List.filterMap_cons, List.filter_cons, hcounts]
    cases hs : knownItem? s with
    | none => exact ih
    | some e =>
      refine .cons ?_ ih
      cases s with
      | element tag inner =>
        rw [knownItem?] at hs
        split at hs <;> cases hs
        exact hi
      | _ => cases hs

theorem mem_sources {c : Content} {s : Source} (h : s ∈ c.sources) :
    (∃ value, s = .text value) ∨ ∃ e ∈ c.elements, s = .element e.1 e.2 := by
  induction c with
  | text value rest ih =>
    cases value with
    | error fault => exact ih h
    | ok value =>
      rcases List.mem_cons.1 h with rfl | h
      · exact .inl ⟨value, rfl⟩
      · exact ih h
  | element tag inner rest _ ih =>
    rcases List.mem_cons.1 h with rfl | h
    · exact .inr ⟨(tag, inner), List.mem_cons_self, rfl⟩
    · rcases ih h with htext | ⟨e, he, hs⟩
      · exact .inl htext
      · exact .inr ⟨e, List.mem_cons_of_mem _ he, hs⟩
  | _ => cases h

theorem exists_forall₂ {α β : Type} {R : α → β → Prop} {as : List α}
    (h : ∀ a ∈ as, ∃ b, R a b) : ∃ bs, List.Forall₂ R as bs := by
  induction as with
  | nil => exact ⟨[], .nil⟩
  | cons a as ih =>
    obtain ⟨⟨b, hb⟩, hmore⟩ := List.forall_mem_cons.1 h
    obtain ⟨bs, hbs⟩ := ih hmore
    exact ⟨b :: bs, .cons hb hbs⟩

theorem ItemsOf.exists {place : Place} {c : Content} (h : c.Sound)
    (hr : ∀ e ∈ c.elements, Role.items.contains e.1.key = true →
      ∃ i, MessageItem.read place (.element e.1 e.2) = .ok i) : ∃ items, ItemsOf place c items := by
  apply exists_forall₂
  intro s hs
  rcases mem_sources ((List.dropWhile_sublist _).subset hs) with ⟨value, rfl⟩ | ⟨e, he, rfl⟩
  · exact ⟨.other, rfl⟩
  · by_cases hk : Role.items.contains e.1.key = true
    · exact hr e he hk
    · exact ⟨.other, read_unknown place hk (h.element he).2⟩

theorem item_alike {e e' : Tag × Content} (h : Paired .message e e') (place place' : Place)
    {i : MessageItem} (hi : MessageItem.read place (.element e.1 e.2) = .ok i) :
    MessageItem.read place' (.element e'.1 e'.2) = .ok i := by
  obtain ⟨tag, inner⟩ := e
  obtain ⟨tag', inner'⟩ := e'
  obtain ⟨tags, inside⟩ := h
  simp only [MessageItem.read] at hi ⊢
  rw [tags.key]
  have hleaf := inside.closed (Role.child_message _)
  have hsame : (Source.element tag inner).Same (.element tag' inner') := .element tags.name hleaf
  split <;> rename_i hkey <;> simp only [hkey] at hi tags
  · rwa [hsame.readText]
  · obtain ⟨f, hf, rfl⟩ := map_eq_ok.1 hi
    have hf' : FieldPart.read place' (.element tag' inner') = .ok f :=
      read_flat (fun _ => rfl) field_flat tags hleaf hf
    rw [hf']
    rfl
  · rwa [hsame.readPresence]
  · rwa [hsame.readPresence]
  · obtain ⟨d, hd, rfl⟩ := map_eq_ok.1 hi
    have hd' : DeprecationPart.read place' (.element tag' inner') = .ok d :=
      read_flat (fun _ => rfl) deprecation_flat tags hleaf hd
    rw [hd']
    rfl
  · rwa [hsame.readPresence]

theorem items_alike {c c' : Content} (h : Alike .message c c') (hs : c.Sound)
    {place : Place} (place' : Place) {items : List MessageItem} (hi : ItemsOf place c items) :
    ∃ items', ItemsOf place' c' items' ∧
      items'.filter MessageItem.counts = items.filter MessageItem.counts := by
  have hpaired : List.Forall₂ (Paired .message)
      (c.elements.filter (Role.items.contains ·.1.key))
      (c'.elements.filter (Role.items.contains ·.1.key)) := by
    apply h.paired rfl
    · intro k hk
      exact Bool.or_eq_true_iff.2 (.inr hk)
    · nofun
  have hex : ∃ items', ItemsOf place' c' items' := by
    apply ItemsOf.exists (h.sound hs)
    intro e' he' hk
    obtain ⟨e, i, hp, hread⟩ := forall₂_partner hpaired hi.known e' (List.mem_filter.2 ⟨he', hk⟩)
    exact ⟨i, item_alike hp place place' hread⟩
  obtain ⟨items', hi'⟩ := hex
  refine ⟨items', hi', ?_⟩
  have hsame : List.Forall₂ (fun i i' => i' = i) (items.filter MessageItem.counts)
      (items'.filter MessageItem.counts) := by
    apply forall₂_square hpaired hi.known hi'.known
    intro e e' i i' hp hread hread'
    rw [item_alike hp place place' hread] at hread'
    exact (Except.ok.inj hread').symm
  exact List.forall₂_eq_eq_eq ▸ hsame.flip

end DialectBindings.Definition
