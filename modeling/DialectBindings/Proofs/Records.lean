import DialectBindings.Proofs.Contents
import Mathlib.Data.List.Forall2

/-!
# What a record gives

A record whose texts do not count gives one value for each of its elements that has a key. The
values come in an order of their own, but those of one key stand in the order of its elements. A
record is refused if a key that may not be repeated is, if the elements of one key have different
names, or if an element under a key cannot be read.
-/

set_option autoImplicit false

namespace DialectBindings.Markup
open Text Results

def under (k : String) (es : List (Tag × Content)) : List (Tag × Content) :=
  es.filter (·.1.key == k)

theorem under_cons_self (tag : Tag) (inner : Content) (es : List (Tag × Content)) :
    under tag.key ((tag, inner) :: es) = (tag, inner) :: under tag.key es := by
  simp [under]

theorem under_cons_of_ne {k : String} {tag : Tag} (h : tag.key ≠ k) (inner : Content)
    (es : List (Tag × Content)) : under k ((tag, inner) :: es) = under k es := by
  simp [under, h]

namespace Content

def without (unwanted : Tag → Bool) : Content → Content
  | .text value rest => .text value (rest.without unwanted)
  | .element tag inner rest =>
    if unwanted tag then rest.without unwanted else .element tag inner (rest.without unwanted)
  | c => c

theorem elements_without (unwanted : Tag → Bool) (c : Content) :
    (c.without unwanted).elements = c.elements.filter fun e => !unwanted e.1 := by
  induction c with
  | text value rest ih => exact ih
  | element tag inner rest _ ih =>
    by_cases h : unwanted tag
    · simp [without, elements, h, ih]
    · simp [without, elements, h, ih]
  | closed next => rfl
  | ended => rfl
  | failed fault => rfl

theorem Sound.without {c : Content} (h : c.Sound) (unwanted : Tag → Bool) :
    (c.without unwanted).Sound := by
  induction c with
  | text value rest ih => exact ⟨h.1, ih h.2⟩
  | element tag inner rest _ ih =>
    rw [Content.without]
    split
    · exact ih h.2.2
    · exact ⟨h.1, h.2.1, ih h.2.2⟩
  | closed next => trivial
  | ended => exact h
  | failed fault => exact h

end Content

section Collect
variable {α : Type} {wanted : Tag → Bool} {read : Source → Except Fault α} {name : List Char}

theorem collect_text (s : List Char) (rest : Content) :
    collect wanted false read name (.text (.ok s) rest) =
      (collect wanted false read name rest >>= fun p => .ok (p.1, .text (.ok s) p.2)) := rfl

theorem collect_wanted {tag : Tag} (ht : tag.fault = none) (hw : wanted tag = true)
    (texts : Bool) (inner rest : Content) :
    collect wanted texts read name (.element tag inner rest) =
      (read (.element tag inner) >>= fun a =>
        collect wanted texts read name rest >>= fun p => .ok (a :: p.1, p.2)) := by
  rw [collect, Content.check_sound ht, if_pos hw]
  rfl

theorem collect_unwanted {tag : Tag} {inner : Content} (ht : tag.fault = none)
    (hi : inner.Sound) (hw : ¬ wanted tag = true) (texts : Bool) (rest : Content) :
    collect wanted texts read name (.element tag inner rest) =
      (collect wanted texts read name rest >>= fun p => .ok (p.1, .element tag inner p.2)) := by
  rw [collect, Content.check_sound ht, if_neg hw, hi.checkAside]
  rfl

theorem collect_gives {c others : Content} {as : List α} (h : c.Sound)
    (hc : collect wanted false read name c = .ok (as, others)) :
    others = c.without wanted ∧ List.Forall₂ (fun (e : Tag × Content) a =>
      read (.element e.1 e.2) = .ok a) (c.elements.filter (wanted ·.1)) as := by
  induction c generalizing as others with
  | closed next =>
    cases hc
    exact ⟨rfl, .nil⟩
  | ended => exact absurd h id
  | failed fault => exact absurd h id
  | text value rest ih =>
    obtain ⟨⟨s, rfl⟩, h⟩ := h
    rw [collect_text] at hc
    obtain ⟨⟨as', others'⟩, hrest, he⟩ := bind_eq_ok.1 hc
    cases he
    obtain ⟨rfl, hall⟩ := ih h hrest
    exact ⟨rfl, hall⟩
  | element tag inner rest _ ih =>
    obtain ⟨ht, hi, h⟩ := h
    by_cases hw : wanted tag = true
    · rw [collect_wanted ht hw] at hc
      obtain ⟨a, ha, hc⟩ := bind_eq_ok.1 hc
      obtain ⟨⟨as', others'⟩, hrest, he⟩ := bind_eq_ok.1 hc
      cases he
      obtain ⟨rfl, hall⟩ := ih h hrest
      rw [Content.without, if_pos hw, Content.elements, List.filter_cons, if_pos hw]
      exact ⟨rfl, .cons ha hall⟩
    · rw [collect_unwanted ht hi hw] at hc
      obtain ⟨⟨as', others'⟩, hrest, he⟩ := bind_eq_ok.1 hc
      cases he
      obtain ⟨rfl, hall⟩ := ih h hrest
      rw [Content.without, if_neg hw, Content.elements, List.filter_cons, if_neg hw]
      exact ⟨rfl, hall⟩

theorem collect_succeeds {c : Content} (h : c.Sound)
    (hr : ∀ e ∈ c.elements, wanted e.1 = true → ∃ a, read (.element e.1 e.2) = .ok a) :
    ∃ as, collect wanted false read name c = .ok (as, c.without wanted) := by
  induction c with
  | closed next => exact ⟨[], rfl⟩
  | ended => exact absurd h id
  | failed fault => exact absurd h id
  | text value rest ih =>
    obtain ⟨⟨s, rfl⟩, h⟩ := h
    obtain ⟨as, has⟩ := ih h hr
    exact ⟨as, by rw [collect_text, has]; rfl⟩
  | element tag inner rest _ ih =>
    obtain ⟨ht, hi, h⟩ := h
    obtain ⟨as, has⟩ := ih h fun e he => hr e (List.mem_cons_of_mem _ he)
    by_cases hw : wanted tag = true
    · obtain ⟨a, ha⟩ := hr (tag, inner) List.mem_cons_self hw
      refine ⟨a :: as, ?_⟩
      rw [collect_wanted ht hw, ha, ok_bind, has, Content.without, if_pos hw]
      rfl
    · refine ⟨as, ?_⟩
      rw [collect_unwanted ht hi hw, has, Content.without, if_neg hw]
      rfl

end Collect

namespace Schema
variable {α : Type} {schema : Schema α} {place : Place} {seen : List String}

/-! ## One child after the other -/

theorem children_closed (next : Scope) : schema.children place seen (.closed next) = .ok [] := by
  rw [children]
  rfl

theorem children_first {c rest : Content} {s : Source}
    (h : c.first? place.parent.name = .ok (some (s, rest))) :
    schema.children place seen c =
      match schema.find s with
      | none => s.readPresence >>= fun _ => schema.children place seen rest
      | some (key, slot, none) =>
        fill place seen key slot s >>= fun value =>
          schema.children place (key :: seen) rest >>= fun values => .ok (value :: values)
      | some (key, slot, some group) =>
        fill place seen key slot s >>= fun value =>
          collect group.wanted group.texts (slot.read place) place.parent.name rest >>= fun p =>
            schema.children ⟨place.parent, some (place.ahead.getD rest.scopeAfter)⟩ (key :: seen)
              p.2 >>= fun values => .ok (value :: p.1 ++ values) := by
  rw [children]
  split
  · rename_i hf
    rw [h] at hf
    cases hf
  · rename_i hf
    rw [h] at hf
    cases hf
  · rename_i hf
    rw [h] at hf
    cases hf
    obtain _ | ⟨key, slot, _ | group⟩ := schema.find s
    · rfl
    · rfl
    · dsimp only
      cases fill place seen key slot s with
      | error fault => rfl
      | ok value =>
        simp only [ok_bind]
        split <;> rename_i hc <;> rw [hc] <;> rfl

/-- The values of a record have keys, which they are read under, and its texts do not count. -/
structure Keyed (schema : Schema α) (keyOf : α → String) : Prop where
  body : schema.body = none
  text : schema.slot textKey = none
  read : ∀ {k : String} {slot : Slot α} {place : Place} {s : Source} {a : α},
    schema.slot k = some slot → slot.read place s = .ok a → keyOf a = k

section Keyed
variable {keyOf : α → String} (hk : schema.Keyed keyOf)
include hk

theorem children_text (s : List Char) (rest : Content) :
    schema.children place seen (.text (.ok s) rest) = schema.children place seen rest := by
  have hf : schema.find (.text s) = none := by
    simp only [find, hk.body, hk.text]
    split <;> rfl
  have hfirst : (Content.text (.ok s) rest).first? place.parent.name =
      .ok (some (.text s, rest)) := rfl
  rw [children_first hfirst, hf]
  rfl

variable {tag : Tag} {slot : Slot α} (ht : tag.fault = none)
include ht

omit hk in
theorem first_element (name : List Char) (inner rest : Content) :
    (Content.element tag inner rest).first? name = .ok (some (.element tag inner, rest)) := by
  rw [Content.first?, Content.check_sound ht]
  rfl

theorem children_unknown {inner : Content} (hi : inner.Sound) (hs : schema.slot tag.key = none)
    (rest : Content) :
    schema.children place seen (.element tag inner rest) = schema.children place seen rest := by
  have hf : schema.find (.element tag inner) = none := by
    unfold find
    simp only [hs, hk.body]
    rfl
  rw [children_first (first_element ht _ inner rest), hf]
  show (passOver tag inner >>= fun _ => schema.children place seen rest) = _
  rw [hi.passOver tag, ok_bind]

omit hk in
theorem children_single (hs : schema.slot tag.key = some slot) (hr : slot.repeated = false)
    (inner rest : Content) :
    schema.children place seen (.element tag inner rest) =
      (fill place seen tag.key slot (.element tag inner) >>= fun value =>
        schema.children place (tag.key :: seen) rest >>= fun values => .ok (value :: values)) := by
  have hf : schema.find (.element tag inner) = some (tag.key, slot, none) := by
    unfold find
    simp only [hs, hr]
    rfl
  rw [children_first (first_element ht _ inner rest), hf]

omit hk in
theorem children_repeated (hs : schema.slot tag.key = some slot) (hr : slot.repeated = true)
    (inner rest : Content) :
    schema.children place seen (.element tag inner rest) =
      (fill place seen tag.key slot (.element tag inner) >>= fun value =>
        collect (·.name == tag.name) false (slot.read place) place.parent.name rest >>= fun p =>
          schema.children ⟨place.parent, some (place.ahead.getD rest.scopeAfter)⟩
            (tag.key :: seen) p.2 >>= fun values => .ok (value :: p.1 ++ values)) := by
  have hf : schema.find (.element tag inner) =
      some (tag.key, slot, some ⟨(·.name == tag.name), false⟩) := by
    unfold find
    simp only [hs, hr]
    rfl
  rw [children_first (first_element ht _ inner rest), hf]

end Keyed

/-! ## All children -/

/-- No key of the elements was met before, and elements that share a key may be repeated and have
one name. -/
def Regular (schema : Schema α) (seen : List String) (es : List (Tag × Content)) : Prop :=
  ∀ k slot, schema.slot k = some slot → ∀ first more, under k es = first :: more →
    k ∉ seen ∧ (more = [] ∨ slot.repeated = true ∧ ∀ e ∈ more, e.1.name = first.1.name)

/-- A value that is read from an element, wherever the reader stands. -/
def ReadAs (slot : Slot α) (parent : Tag) (e : Tag × Content) (v : α) : Prop :=
  ∃ ahead, slot.read ⟨parent, ahead⟩ (.element e.1 e.2) = .ok v

/-- The values are those of the elements, for each key in the order of the elements. -/
structure Gives (schema : Schema α) (keyOf : α → String) (parent : Tag)
    (es : List (Tag × Content)) (vs : List α) : Prop where
  known : ∀ v ∈ vs, (schema.slot (keyOf v)).isSome = true
  read : ∀ k slot, schema.slot k = some slot →
    List.Forall₂ (ReadAs slot parent) (under k es) (vs.filter (keyOf · == k))

theorem fill_eq_ok {key : String} {slot : Slot α} {s : Source} {v : α} :
    fill place seen key slot s = .ok v ↔ key ∉ seen ∧ slot.read place s = .ok v := by
  rw [fill]
  by_cases h : key ∈ seen
  · simp [h]
  · simp [h]

theorem Regular.fresh {k : String} {slot : Slot α} {es : List (Tag × Content)}
    (h : schema.Regular (k :: seen) es) (hs : schema.slot k = some slot) : under k es = [] := by
  cases hu : under k es with
  | nil => rfl
  | cons first more => exact absurd List.mem_cons_self (h k slot hs first more hu).1

theorem key_eq {tag tag' : Tag} (h : tag.name = tag'.name) : tag.key = tag'.key := by
  rw [Tag.key, Tag.key, h]

theorem under_without_other {k : String} {tag : Tag} (h : tag.key ≠ k) (c : Content) :
    under k (c.without (·.name == tag.name)).elements = under k c.elements := by
  rw [Content.elements_without, under, under, List.filter_filter]
  apply List.filter_congr
  intro e _
  by_cases hn : e.1.name = tag.name
  · simp [key_eq hn, h]
  · simp [hn]

theorem under_without_self {tag : Tag} {c : Content} :
    under tag.key (c.without (·.name == tag.name)).elements = [] ↔
      ∀ e ∈ under tag.key c.elements, e.1.name = tag.name := by
  rw [Content.elements_without, under, List.filter_filter, List.filter_eq_nil_iff]
  simp only [under, List.mem_filter]
  constructor
  · rintro h e ⟨he, hkey⟩
    have := h e he
    simpa [hkey] using this
  · intro h e he hkey
    simp only [Bool.and_eq_true] at hkey
    simp [h e ⟨he, hkey.1⟩] at hkey

theorem under_named {tag : Tag} {es : List (Tag × Content)}
    (h : ∀ e ∈ under tag.key es, e.1.name = tag.name) :
    under tag.key es = es.filter (·.1.name == tag.name) := by
  apply List.filter_congr
  intro e he
  by_cases hn : e.1.name = tag.name
  · simp [key_eq hn, hn]
  · have hkey : e.1.key ≠ tag.key := by
      intro hkey
      apply hn
      apply h e
      simp [under, he, hkey]
    simp [hkey, hn]

section Step
variable {tag : Tag} {inner : Content} {es others : List (Tag × Content)} {slot : Slot α}

theorem under_cons_unknown {k : String} (hs : schema.slot tag.key = none)
    (hk : schema.slot k = some slot) : under k ((tag, inner) :: es) = under k es := by
  apply under_cons_of_ne
  rintro rfl
  rw [hs] at hk
  cases hk

theorem Regular.congr (h : schema.Regular seen es)
    (hu : ∀ k slot, schema.slot k = some slot → under k others = under k es) :
    schema.Regular seen others := by
  intro k slot hs first more hm
  rw [hu k slot hs] at hm
  exact h k slot hs first more hm

theorem Regular.group (hseen : tag.key ∉ seen)
    (hs : schema.slot tag.key = some slot)
    (hmore : under tag.key es = [] ∨
      slot.repeated = true ∧ ∀ e ∈ under tag.key es, e.1.name = tag.name)
    (hothers : ∀ k, tag.key ≠ k → under k others = under k es)
    (h : schema.Regular (tag.key :: seen) others) : schema.Regular seen ((tag, inner) :: es) := by
  intro k slot' hs' first more hu
  by_cases hkey : tag.key = k
  · subst hkey
    rw [hs] at hs'
    cases hs'
    rw [under_cons_self] at hu
    cases hu
    exact ⟨hseen, hmore⟩
  · rw [under_cons_of_ne hkey, ← hothers k hkey] at hu
    obtain ⟨hk, hm⟩ := h k slot' hs' first more hu
    exact ⟨fun hmem => hk (List.mem_cons_of_mem _ hmem), hm⟩

theorem Regular.ungroup (h : schema.Regular seen ((tag, inner) :: es))
    (hnone : under tag.key others = [])
    (hothers : ∀ k, tag.key ≠ k → under k others = under k es) :
    schema.Regular (tag.key :: seen) others := by
  intro k slot' hs first more hu
  by_cases hkey : tag.key = k
  · rw [← hkey, hnone] at hu
    cases hu
  · rw [hothers k hkey, ← under_cons_of_ne hkey inner] at hu
    obtain ⟨hk, hm⟩ := h k slot' hs first more hu
    refine ⟨?_, hm⟩
    intro hmem
    rcases List.mem_cons.1 hmem with rfl | hmem
    · exact hkey rfl
    · exact hk hmem

variable {keyOf : α → String} {parent : Tag} {vs : List α}

theorem Gives.congr (h : schema.Gives keyOf parent es vs)
    (hu : ∀ k slot, schema.slot k = some slot → under k others = under k es) :
    schema.Gives keyOf parent others vs := by
  refine ⟨h.known, ?_⟩
  intro k slot hs
  rw [hu k slot hs]
  exact h.read k slot hs

theorem forall₂_keys (hk : schema.Keyed keyOf) {k : String} (hs : schema.slot k = some slot)
    {as : List α} (h : List.Forall₂ (ReadAs slot parent) es as) : ∀ a ∈ as, keyOf a = k := by
  induction h with
  | nil => simp
  | cons hv _ ih =>
    obtain ⟨ahead, hv⟩ := hv
    exact List.forall_mem_cons.2 ⟨hk.read hs hv, ih⟩

theorem Gives.group (hk : schema.Keyed keyOf) (hs : schema.slot tag.key = some slot)
    {v : α} {more : List α} (hv : ReadAs slot parent (tag, inner) v)
    (hmore : List.Forall₂ (ReadAs slot parent) (under tag.key es) more)
    (hnone : under tag.key others = [])
    (hothers : ∀ k, tag.key ≠ k → under k others = under k es)
    (h : schema.Gives keyOf parent others vs) :
    schema.Gives keyOf parent ((tag, inner) :: es) (v :: more ++ vs) := by
  have hall := List.Forall₂.cons hv hmore
  have hkeys := forall₂_keys hk hs hall
  constructor
  · intro w hw
    rcases List.mem_append.1 hw with hw | hw
    · rw [hkeys w hw, hs]
      rfl
    · exact h.known w hw
  · intro k slot' hs'
    rw [List.filter_append]
    by_cases hkey : tag.key = k
    · subst hkey
      rw [hs] at hs'
      cases hs'
      have hrest := h.read _ _ hs
      rw [hnone] at hrest
      rw [under_cons_self, List.forall₂_nil_left_iff.1 hrest, List.append_nil,
        List.filter_eq_self.2 fun w hw => by simpa using hkeys w hw]
      exact hall
    · rw [under_cons_of_ne hkey, ← hothers k hkey,
        List.filter_eq_nil_iff.2 fun w hw => by simpa [hkeys w hw] using hkey]
      exact h.read k slot' hs'

end Step

section Children
variable {keyOf : α → String} (hk : schema.Keyed keyOf)
include hk

/-- What the children of a record are if it is read, and the values it gives. -/
theorem children_gives {c : Content} {vs : List α} (h : c.Sound)
    (hc : schema.children place seen c = .ok vs) :
    schema.Regular seen c.elements ∧ schema.Gives keyOf place.parent c.elements vs := by
  induction hn : c.width using Nat.strongRecOn generalizing c place seen vs with
  | ind n ih =>
    subst hn
    cases c with
    | closed next =>
      rw [children_closed] at hc
      cases hc
      exact ⟨nofun, ⟨nofun, fun _ _ _ => .nil⟩⟩
    | ended => exact absurd h id
    | failed fault => exact absurd h id
    | text value rest =>
      obtain ⟨⟨s, rfl⟩, hrest⟩ := h
      rw [children_text hk] at hc
      have hall := ih rest.width (Nat.lt_succ_self _) hrest hc rfl
      exact hall
    | element tag inner rest =>
      obtain ⟨ht, hi, h⟩ := h
      have hless : rest.width < (Content.element tag inner rest).width := Nat.lt_succ_self _
      cases hs : schema.slot tag.key with
      | none =>
        rw [children_unknown hk ht hi hs] at hc
        obtain ⟨hreg, hgiv⟩ := ih rest.width hless h hc rfl
        exact ⟨hreg.congr fun _ _ => under_cons_unknown hs, hgiv.congr fun _ _ => under_cons_unknown hs⟩
      | some slot =>
        cases hr : slot.repeated with
        | false =>
          rw [children_single ht hs hr] at hc
          obtain ⟨v, hv, hc⟩ := bind_eq_ok.1 hc
          obtain ⟨vs', hvs, he⟩ := bind_eq_ok.1 hc
          cases he
          obtain ⟨hseen, hv⟩ := fill_eq_ok.1 hv
          obtain ⟨hreg, hgiv⟩ := ih rest.width hless h hvs rfl
          have hnone := hreg.fresh hs
          have hmore : List.Forall₂ (ReadAs slot place.parent) (under tag.key rest.elements) [] := by
            rw [hnone]
            exact .nil
          exact ⟨hreg.group hseen hs (.inl hnone) fun _ _ => rfl,
            hgiv.group hk hs ⟨place.ahead, hv⟩ hmore hnone fun _ _ => rfl⟩
        | true =>
          rw [children_repeated ht hs hr] at hc
          obtain ⟨v, hv, hc⟩ := bind_eq_ok.1 hc
          obtain ⟨⟨as, others⟩, hcol, hc⟩ := bind_eq_ok.1 hc
          obtain ⟨vs', hvs, he⟩ := bind_eq_ok.1 hc
          cases he
          obtain ⟨hseen, hv⟩ := fill_eq_ok.1 hv
          have hwidth := collect_width hcol
          obtain ⟨rfl, has⟩ := collect_gives h hcol
          obtain ⟨hreg, hgiv⟩ := ih _ (Nat.lt_of_le_of_lt hwidth hless) (h.without _) hvs rfl
          have hnone := hreg.fresh hs
          have hname := under_without_self.1 hnone
          have hmore : List.Forall₂ (ReadAs slot place.parent) (under tag.key rest.elements) as := by
            rw [under_named hname]
            exact has.imp fun _ _ he => ⟨place.ahead, he⟩
          have hothers : ∀ k, tag.key ≠ k →
              under k (rest.without (·.name == tag.name)).elements = under k rest.elements :=
            fun k hkey => under_without_other hkey rest
          exact ⟨hreg.group hseen hs (.inr ⟨hr, hname⟩) hothers,
            hgiv.group hk hs ⟨place.ahead, hv⟩ hmore hnone hothers⟩

/-- A record is read if its children are as they should be and each of them can be read. -/
theorem children_succeeds {c : Content} (h : c.Sound) (hreg : schema.Regular seen c.elements)
    (hread : ∀ e ∈ c.elements, ∀ slot, schema.slot e.1.key = some slot → ∀ ahead,
      ∃ v, slot.read ⟨place.parent, ahead⟩ (.element e.1 e.2) = .ok v) :
    ∃ vs, schema.children place seen c = .ok vs := by
  induction hn : c.width using Nat.strongRecOn generalizing c place seen with
  | ind n ih =>
    subst hn
    cases c with
    | closed next => exact ⟨[], children_closed next⟩
    | ended => exact absurd h id
    | failed fault => exact absurd h id
    | text value rest =>
      obtain ⟨⟨s, rfl⟩, hrest⟩ := h
      rw [children_text hk]
      have hall := ih rest.width (Nat.lt_succ_self _) hrest hreg hread rfl
      exact hall
    | element tag inner rest =>
      obtain ⟨ht, hi, h⟩ := h
      have hless : rest.width < (Content.element tag inner rest).width := Nat.lt_succ_self _
      have hmem : ∀ e ∈ rest.elements, e ∈ (Content.element tag inner rest).elements :=
        fun e he => List.mem_cons_of_mem _ he
      cases hs : schema.slot tag.key with
      | none =>
        rw [children_unknown hk ht hi hs]
        have hrest : schema.Regular seen rest.elements :=
          hreg.congr fun _ _ hs' => (under_cons_unknown hs hs').symm
        exact ih rest.width hless h hrest (fun e he => hread e (hmem e he)) rfl
      | some slot =>
        obtain ⟨hseen, hmore⟩ := hreg tag.key slot hs _ _ (under_cons_self tag inner rest.elements)
        obtain ⟨v, hv⟩ := hread (tag, inner) List.mem_cons_self slot hs place.ahead
        have hfill : fill place seen tag.key slot (.element tag inner) = .ok v :=
          fill_eq_ok.2 ⟨hseen, hv⟩
        cases hr : slot.repeated with
        | false =>
          rcases hmore with hnone | ⟨hrep, _⟩
          · have hrest := hreg.ungroup hnone fun _ _ => rfl
            obtain ⟨vs, hvs⟩ := ih rest.width hless h hrest (fun e he => hread e (hmem e he)) rfl
            exact ⟨v :: vs, by rw [children_single ht hs hr, hfill, ok_bind, hvs, ok_bind]⟩
          · rw [hr] at hrep
            cases hrep
        | true =>
          have hname : ∀ e ∈ under tag.key rest.elements, e.1.name = tag.name := by
            rcases hmore with hnone | ⟨_, hname⟩
            · rw [hnone]
              nofun
            · exact hname
          have hcol : ∃ as, collect (·.name == tag.name) false (slot.read place) place.parent.name
              rest = .ok (as, rest.without (·.name == tag.name)) := by
            apply collect_succeeds h
            intro e he hn
            have hkey : e.1.key = tag.key := key_eq (by simpa using hn)
            exact hread e (hmem e he) slot (by rw [hkey, hs]) place.ahead
          obtain ⟨as, has⟩ := hcol
          have hrest := hreg.ungroup (under_without_self.2 hname)
            fun k hkey => under_without_other hkey rest
          have hless' : (rest.without (·.name == tag.name)).width <
              (Content.element tag inner rest).width :=
            Nat.lt_of_le_of_lt (collect_width has) hless
          have hread' : ∀ e ∈ (rest.without (·.name == tag.name)).elements, ∀ slot,
              schema.slot e.1.key = some slot → ∀ ahead,
              ∃ v, slot.read ⟨place.parent, ahead⟩ (.element e.1 e.2) = .ok v := by
            intro e he
            rw [Content.elements_without] at he
            exact hread e (hmem e (List.mem_filter.1 he).1)
          let next : Place := ⟨place.parent, some (place.ahead.getD rest.scopeAfter)⟩
          have hvs : ∃ vs, schema.children next (tag.key :: seen)
              (rest.without (·.name == tag.name)) = .ok vs :=
            ih _ hless' (h.without _) hrest hread' rfl
          obtain ⟨vs, hvs⟩ := hvs
          exact ⟨v :: as ++ vs, by
            rw [children_repeated ht hs hr, hfill, ok_bind, has, ok_bind, hvs, ok_bind]⟩

end Children

section Read
variable {β : Type} {build : List α → Except Fault β} {tag : Tag} {inner : Content}

theorem read_eq {met : List String} {found given : List α}
    (ha : schema.attributes ⟨tag, place.ahead⟩ [] tag.attributes = .ok (met, found))
    (hc : schema.children ⟨tag, place.ahead⟩ met inner = .ok given) :
    schema.read build place (.element tag inner) = build (found ++ given) := by
  have hvalues : schema.values place.ahead tag inner = .ok (found ++ given) := by
    unfold values
    simp only [ha, ok_bind, hc]
    rfl
  show (schema.values place.ahead tag inner >>= build) = _
  rw [hvalues, ok_bind]

theorem read_ok {b : β} (h : schema.read build place (.element tag inner) = .ok b) :
    ∃ met found given, schema.attributes ⟨tag, place.ahead⟩ [] tag.attributes = .ok (met, found) ∧
      schema.children ⟨tag, place.ahead⟩ met inner = .ok given ∧
      build (found ++ given) = .ok b := by
  obtain ⟨vs, hvs, hb⟩ := bind_eq_ok.1 h
  obtain ⟨⟨met, found⟩, ha, hvs⟩ := bind_eq_ok.1 hvs
  obtain ⟨given, hc, he⟩ := bind_eq_ok.1 hvs
  cases he
  exact ⟨met, found, given, ha, hc, hb⟩

end Read

end Schema

end DialectBindings.Markup
