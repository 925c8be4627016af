import DialectBindings.Definition.Reader
import DialectBindings.Proofs.Records

/-!
# The parts of a definition's records

Each part of a record stands under one key. A record is put together from its parts alike
whatever order parts of different keys have.
-/

set_option autoImplicit false

namespace DialectBindings.Definition
open Markup Results

/-- For each key, the same values in the same order. -/
def SameByKey {α : Type} (key : α → String) (vs ws : List α) : Prop :=
  ∀ k, vs.filter (key · == k) = ws.filter (key · == k)

section SameByKey
variable {α β : Type} {key : α → String} {vs ws : List α}

theorem SameByKey.append (h : SameByKey key vs ws) (front : List α) :
    SameByKey key (front ++ vs) (front ++ ws) := by
  intro k
  rw [List.filter_append, List.filter_append, h k]

theorem findSome?_filter_key {k : String} {f : α → Option β} (hf : ∀ v, key v ≠ k → f v = none)
    (vs : List α) : (vs.filter (key · == k)).findSome? f = vs.findSome? f := by
  induction vs with
  | nil => rfl
  | cons v vs ih =>
    by_cases hv : key v = k
    · rw [List.filter_cons, if_pos (by simpa using hv), List.findSome?_cons, List.findSome?_cons, ih]
    · rw [List.filter_cons, if_neg (by simpa using hv), List.findSome?_cons, hf v hv, ih]

theorem filterMap_filter_key {k : String} {f : α → Option β} (hf : ∀ v, key v ≠ k → f v = none)
    (vs : List α) : (vs.filter (key · == k)).filterMap f = vs.filterMap f := by
  induction vs with
  | nil => rfl
  | cons v vs ih =>
    by_cases hv : key v = k
    · rw [List.filter_cons, if_pos (by simpa using hv), List.filterMap_cons, List.filterMap_cons, ih]
    · rw [List.filter_cons, if_neg (by simpa using hv), List.filterMap_cons, hf v hv, ih]

theorem SameByKey.findSome? (h : SameByKey key vs ws) (k : String) (f : α → Option β)
    (hf : ∀ v, key v ≠ k → f v = none) : vs.findSome? f = ws.findSome? f := by
  rw [← findSome?_filter_key hf vs, h k, findSome?_filter_key hf ws]

theorem SameByKey.filterMap (h : SameByKey key vs ws) (k : String) (f : α → Option β)
    (hf : ∀ v, key v ≠ k → f v = none) : vs.filterMap f = ws.filterMap f := by
  rw [← filterMap_filter_key hf vs, h k, filterMap_filter_key hf ws]

end SameByKey

/-! ## Parts of which some are changed -/

section Changed
variable {α β : Type} {part : α → α}

theorem findSome?_kept {f : α → Option β} (h : ∀ a, f (part a) = f a) (vs : List α) :
    (vs.map part).findSome? f = vs.findSome? f := by
  rw [List.findSome?_map]
  exact congrArg (List.findSome? · vs) (funext h)

theorem findSome?_changed {f : α → Option β} (g : β → β) (h : ∀ a, f (part a) = (f a).map g)
    (vs : List α) : (vs.map part).findSome? f = (vs.findSome? f).map g := by
  rw [List.findSome?_map, List.map_findSome?]
  exact congrArg (List.findSome? · vs) (funext h)

theorem filterMap_kept {f : α → Option β} (h : ∀ a, f (part a) = f a) (vs : List α) :
    (vs.map part).filterMap f = vs.filterMap f := by
  rw [List.filterMap_map]
  exact congrArg (List.filterMap · vs) (funext h)

theorem filterMap_changed {f : α → Option β} (g : β → β) (h : ∀ a, f (part a) = (f a).map g)
    (vs : List α) : (vs.map part).filterMap f = (vs.filterMap f).map g := by
  rw [List.filterMap_map, List.map_filterMap]
  exact congrArg (List.filterMap · vs) (funext h)

theorem getD_map_nil {g : α → β} (vs? : Option (List α)) :
    (vs?.map (List.map g)).getD [] = (vs?.getD []).map g := by
  cases vs? <;> rfl

end Changed

namespace EntryPart

def key : EntryPart → String
  | .name _ => "@name"
  | .value _ => "@value"
  | .description _ => "description"
  | .param _ => "param"
  | .deprecated _ => "deprecated"
  | .wip _ => "wip"

theorem keyed : Schema.Keyed ⟨slot, none⟩ key where
  body := rfl
  text := rfl
  read := by
    intro k slot place s a hs ha
    simp only [EntryPart.slot] at hs
    split at hs <;> cases hs <;> obtain ⟨b, _, rfl⟩ := map_eq_ok.1 ha <;> rfl

theorem build_sameByKey {vs ws : List EntryPart} (h : SameByKey key vs ws) :
    build vs = build ws := by
  unfold build
  rw [h.findSome? "@name" _ (by intro v; cases v <;> simp [key]),
    h.findSome? "@value" _ (by intro v; cases v <;> simp [key]),
    h.findSome? "description" _ (by intro v; cases v <;> simp [key]),
    h.filterMap "param" _ (by intro v; cases v <;> simp [key]),
    h.findSome? "deprecated" _ (by intro v; cases v <;> simp [key]),
    h.findSome? "wip" _ (by intro v; cases v <;> simp [key])]

end EntryPart

namespace EnumPart

def key : EnumPart → String
  | .name _ => "@name"
  | .bitmask _ => "@bitmask"
  | .description _ => "description"
  | .deprecated _ => "deprecated"
  | .entry _ => "entry"

theorem keyed : Schema.Keyed ⟨slot, none⟩ key where
  body := rfl
  text := rfl
  read := by
    intro k slot place s a hs ha
    simp only [EnumPart.slot] at hs
    split at hs <;> cases hs <;> obtain ⟨b, _, rfl⟩ := map_eq_ok.1 ha <;> rfl

theorem build_sameByKey {vs ws : List EnumPart} (h : SameByKey key vs ws) :
    build vs = build ws := by
  unfold build
  rw [h.findSome? "@name" _ (by intro v; cases v <;> simp [key]),
    h.findSome? "@bitmask" _ (by intro v; cases v <;> simp [key]),
    h.findSome? "description" _ (by intro v; cases v <;> simp [key]),
    h.findSome? "deprecated" _ (by intro v; cases v <;> simp [key]),
    h.filterMap "entry" _ (by intro v; cases v <;> simp [key])]

end EnumPart

namespace DocumentPart

def key : DocumentPart → String
  | .included _ => "include"
  | .version _ => "version"
  | .number _ => "dialect"
  | .enums _ => "enums"
  | .messages _ => "messages"

theorem keyed : Schema.Keyed ⟨slot, none⟩ key where
  body := rfl
  text := rfl
  read := by
    intro k slot place s a hs ha
    simp only [DocumentPart.slot] at hs
    split at hs <;> cases hs <;> obtain ⟨b, _, rfl⟩ := map_eq_ok.1 ha <;> rfl

theorem build_sameByKey {vs ws : List DocumentPart} (h : SameByKey key vs ws) :
    build vs = build ws := by
  unfold build
  rw [h.filterMap "include" _ (by intro v; cases v <;> simp [key]),
    h.findSome? "version" _ (by intro v; cases v <;> simp [key]),
    h.findSome? "dialect" _ (by intro v; cases v <;> simp [key]),
    h.findSome? "enums" _ (by intro v; cases v <;> simp [key]),
    h.findSome? "messages" _ (by intro v; cases v <;> simp [key])]

end DocumentPart

theorem MessagePart.build_items (found : List MessagePart) (items : List MessageItem) :
    MessagePart.build (found ++ items.map MessagePart.item) =
      (MessagePart.build found).map fun m => { m with items := m.items ++ items } := by
  have hsome : ∀ {β : Type} (f : MessagePart → Option β), (∀ i, f (.item i) = none) →
      (found ++ items.map MessagePart.item).findSome? f = found.findSome? f := by
    intro β f hf
    have hnone : (items.map MessagePart.item).findSome? f = none := by
      rw [List.findSome?_eq_none_iff]
      intro p hp
      obtain ⟨i, _, rfl⟩ := List.mem_map.1 hp
      exact hf i
    rw [List.findSome?_append, hnone, Option.or_none]
  have hitems : ∀ f : MessagePart → Option MessageItem, (∀ i, f (.item i) = some i) →
      (items.map MessagePart.item).filterMap f = items := by
    intro f hf
    rw [List.filterMap_map]
    exact (List.filterMap_congr fun i _ => hf i).trans List.filterMap_some
  have hmap : ∀ {x : Except Markup.Fault UInt32} {y : Except Markup.Fault String}
      (its : List MessageItem), (x >>= fun id => y >>= fun name => pure ⟨id, name, its ++ items⟩) =
        (x >>= fun id => y >>= fun name => pure (MessageDecl.mk id name its)).map
          fun m => { m with items := m.items ++ items } := by
    intro x y its
    cases x <;> cases y <;> rfl
  unfold MessagePart.build
  rw [hsome _ fun _ => rfl, hsome _ fun _ => rfl, List.filterMap_append, hitems _ fun _ => rfl]
  exact hmap _

def listed {α : Type} (key : String) (read : Place → Source → Except Markup.Fault α) : Schema α :=
  ⟨fun k => if k = key then some ⟨read, true⟩ else none, none⟩

theorem listed_keyed {α : Type} {key : String} (h : key ≠ textKey)
    (read : Place → Source → Except Markup.Fault α) : (listed key read).Keyed fun _ => key where
  body := rfl
  text := if_neg h.symm
  read := by
    intro k slot place s a hs _
    simp only [listed] at hs
    split at hs
    · rename_i hk
      exact hk.symm
    · cases hs

theorem readEnums_eq : readEnums = Schema.read (listed "enum" EnumPart.read) .ok := by
  unfold readEnums listed
  congr 2
  funext k
  split <;> simp_all

theorem readMessages_eq : readMessages = Schema.read (listed "message" MessagePart.read) .ok := by
  unfold readMessages listed
  congr 2
  funext k
  split <;> simp_all

end DialectBindings.Definition
