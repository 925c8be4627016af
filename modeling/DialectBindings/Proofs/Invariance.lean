import DialectBindings.Proofs.FlatRecords

/-!
# Records with children that are read alike

A record that is read is read from every content alike, as long as no element that counts is
marked as absent: whether one is depends on where the reader stands. For each key it gives the
same values.
-/

set_option autoImplicit false

namespace DialectBindings.Markup

/-- An attribute that would mark an element as absent if its prefix were bound accordingly. -/
def isMark : Except Fault Attribute → Bool
  | .error _ => false
  | .ok a =>
    match splitName a.name with
    | (some _, ['n', 'i', 'l']) => a.value == ['t', 'r', 'u', 'e'] || a.value == ['1']
    | _ => false

def Tag.Unmarked (t : Tag) : Prop := t.attributes.any isMark = false

instance decidableUnmarked (t : Tag) : Decidable t.Unmarked :=
  inferInstanceAs (Decidable (_ = false))

theorem isMark_of_marksAbsent {scope : Scope} {a : Except Fault Attribute}
    (h : Tag.marksAbsent scope a = true) : isMark a = true := by
  cases a with
  | error fault => cases h
  | ok a =>
    simp only [Tag.marksAbsent, isMark] at h ⊢
    generalize splitName a.name = parts at h ⊢
    split at h
    · exact (Bool.and_eq_true_iff.1 h).2
    · cases h

theorem Tag.Unmarked.isAbsent {t : Tag} (h : t.Unmarked) (scope : Scope) :
    t.isAbsent scope = false := by
  rw [Tag.isAbsent, List.any_eq_false]
  intro a ha hmark
  exact List.any_eq_false.1 h a ha (isMark_of_marksAbsent hmark)

theorem readOptional_unmarked {α : Type} (read : Source → Except Fault α) {place : Place}
    {tag : Tag} (inner : Content) (hp : place.parent.Unmarked) (ht : tag.Unmarked) :
    (Source.element tag inner).readOptional read place =
      (read (.element tag inner)).map some := by
  have habsent : (Source.element tag inner).isAbsent place = false := by
    simp only [Source.isAbsent, hp.isAbsent, ht.isAbsent, Bool.or_self]
  rw [Source.readOptional, habsent]
  rfl

end DialectBindings.Markup

namespace DialectBindings.Definition
open Markup Results

theorem Retagged.unmarked {ρ : Role} {tag tag' : Tag} (h : Retagged ρ tag tag')
    (hu : tag.Unmarked) : tag'.Unmarked := by
  have hold : tag.attributes.any isMark = false := hu
  show tag'.attributes.any isMark = false
  generalize tag.attributes = as, tag'.attributes = bs, h.attributes = hw at hold
  cases hw with
  | same as => exact hold
  | more as bs a plain unknown =>
    have hnew : isMark (.ok a) = false := by
      have hsplit : splitName a.name = (none, (splitName a.name).2) := Prod.ext plain rfl
      generalize (splitName a.name).2 = s at hsplit
      simp only [isMark, hsplit]
    simpa [hnew] using hold

/-- No child is marked as absent where that counts, and the same inside the children that are read.
A child of a message has no name that is kept for an attribute or for all children. -/
def Ordinary (ρ : Role) : Content → Prop
  | .text _ rest => Ordinary ρ rest
  | .element tag inner rest =>
    (ρ.heeds tag.key = true → tag.Unmarked) ∧
      (ρ.knows tag.key = true → Ordinary (ρ.child tag.key) inner) ∧
      (ρ = .message → MessagePart.slot tag.key = none) ∧ Ordinary ρ rest
  | _ => True

instance decidableOrdinary (ρ : Role) : (c : Content) → Decidable (Ordinary ρ c)
  | .text _ rest => decidableOrdinary ρ rest
  | .element tag inner rest =>
    have := decidableOrdinary (ρ.child tag.key) inner
    have := decidableOrdinary ρ rest
    have : Decidable (MessagePart.slot tag.key = none) :=
      decidable_of_iff ((MessagePart.slot tag.key).isNone = true) Option.isNone_iff_eq_none
    inferInstanceAs (Decidable ((ρ.heeds tag.key = true → tag.Unmarked) ∧
      (ρ.knows tag.key = true → Ordinary (ρ.child tag.key) inner) ∧
      (ρ = .message → MessagePart.slot tag.key = none) ∧ Ordinary ρ rest))
  | .closed _ => isTrue trivial
  | .ended => isTrue trivial
  | .failed _ => isTrue trivial

theorem Ordinary.element {ρ : Role} {c : Content} (h : Ordinary ρ c) :
    ∀ e ∈ c.elements, (ρ.heeds e.1.key = true → e.1.Unmarked) ∧
      (ρ.knows e.1.key = true → Ordinary (ρ.child e.1.key) e.2) ∧
      (ρ = .message → MessagePart.slot e.1.key = none) := by
  induction c with
  | text value rest ih => exact ih h
  | element tag inner rest _ ih =>
    obtain ⟨hmark, hinner, hname, hrest⟩ := h
    exact List.forall_mem_cons.2 ⟨⟨hmark, hinner, hname⟩, ih hrest⟩
  | closed next => nofun
  | ended => nofun
  | failed fault => nofun

/-- Children that are read alike, the first of which is in order. -/
structure Twin (ρ : Role) (e e' : Tag × Content) : Prop extends Paired ρ e e' where
  sound : e.2.Sound
  unmarked : ρ.heeds e.1.key = true → e.1.Unmarked
  ordinary : Ordinary (ρ.child e.1.key) e.2

section Lists
variable {α β γ δ : Type} {R : α → β → Prop} {P : α → γ → Prop} {Q : β → δ → Prop}
variable {as : List α} {bs : List β} {cs : List γ} {ds : List δ}

theorem forall₂_partner (h : List.Forall₂ R as bs) (h' : List.Forall₂ P as cs) :
    ∀ b ∈ bs, ∃ a c, R a b ∧ P a c := by
  induction h generalizing cs with
  | nil => nofun
  | cons hr _ ih =>
    cases h' with
    | cons hp h' => exact List.forall_mem_cons.2 ⟨⟨_, _, hr, hp⟩, ih h'⟩

theorem forall₂_square {V : γ → δ → Prop} (h : List.Forall₂ R as bs) (hp : List.Forall₂ P as cs)
    (hq : List.Forall₂ Q bs ds) (hv : ∀ a b c d, R a b → P a c → Q b d → V c d) :
    List.Forall₂ V cs ds := by
  induction h generalizing cs ds with
  | nil =>
    cases hp
    cases hq
    exact .nil
  | cons hr _ ih =>
    cases hp with
    | cons hp hps =>
      cases hq with
      | cons hq hqs => exact .cons (hv _ _ _ _ hr hp hq) (ih hps hqs)

end Lists

section Records
variable {α : Type} {schema : Schema α} {keyOf : α → String} {ρ : Role}

theorem Regular.named {seen : List String} {es : List (Tag × Content)} {k : String}
    {slot : Slot α} (h : schema.Regular seen es) (hs : schema.slot k = some slot) :
    ∀ e ∈ under k es, ∀ f ∈ under k es, e.1.name = f.1.name := by
  cases hu : under k es with
  | nil => nofun
  | cons first more =>
    have hfirst : ∀ e ∈ first :: more, e.1.name = first.1.name := by
      rcases (h k slot hs first more hu).2 with rfl | ⟨_, hmore⟩
      · simp
      · exact List.forall_mem_cons.2 ⟨rfl, hmore⟩
    intro e he f hf
    rw [hfirst e he, hfirst f hf]

theorem Alike.ofKey {c c' : Content} {seen : List String} (h : Alike ρ c c')
    (hρ : ρ.isOpen = true) (fits : Fits ρ schema) (hreg : schema.Regular seen c.elements)
    {k : String} {slot : Slot α} (hs : schema.slot k = some slot) :
    List.Forall₂ (Paired ρ) (under k c.elements) (under k c'.elements) := by
  apply h.paired hρ (· == k)
  · intro k' hk
    rw [beq_iff_eq.1 hk, ← fits, hs]
    rfl
  · intro _ e he f hf hek hfk
    exact Regular.named hreg hs e (List.mem_filter.2 ⟨he, hek⟩) f (List.mem_filter.2 ⟨hf, hfk⟩)

theorem forall₂_regular {es es' : List (Tag × Content)} {seen : List String}
    (hreg : schema.Regular seen es) (h : ∀ k slot, schema.slot k = some slot →
      List.Forall₂ (Paired ρ) (under k es) (under k es')) : schema.Regular seen es' := by
  intro k slot hs first' more' hu'
  have hall := h k slot hs
  rw [hu'] at hall
  cases hu : under k es with
  | nil =>
    rw [hu] at hall
    cases hall
  | cons first more =>
    rw [hu] at hall
    cases hall with
    | cons hfirst hmore =>
      obtain ⟨hseen, hm⟩ := hreg k slot hs first more hu
      refine ⟨hseen, ?_⟩
      rcases hm with rfl | ⟨hrep, hnames⟩
      · cases hmore
        exact .inl rfl
      · refine .inr ⟨hrep, ?_⟩
        have hnamed := (List.forall₂_and_left _ _).2 ⟨hnames, hmore⟩
        intro e' he'
        obtain ⟨e, _, ⟨hname, hp⟩, _⟩ := forall₂_partner hnamed hmore e' he'
        rw [hp.tags.name, hname, hfirst.tags.name]

/-- How the values of a child's element follow those of an element that is read alike. -/
def Follows (ρ : Role) (V : α → α → Prop) (slot : Slot α) (e e' : Tag × Content) : Prop :=
  ∀ place place', (ρ.minds = true → place.parent.Unmarked) →
    (ρ.minds = true → place'.parent.Unmarked) → ∀ v, slot.read place (.element e.1 e.2) = .ok v →
      ∃ v', slot.read place' (.element e'.1 e'.2) = .ok v' ∧ V v v'

theorem Alike.twins {c c' : Content} {seen : List String} (h : Alike ρ c c')
    (hρ : ρ.isOpen = true) (fits : Fits ρ schema) (hs : c.Sound) (ho : Ordinary ρ c)
    (hreg : schema.Regular seen c.elements) {k : String} {slot : Slot α}
    (hslot : schema.slot k = some slot) :
    List.Forall₂ (fun e e' => e.1.key = k ∧ Twin ρ e e') (under k c.elements)
      (under k c'.elements) := by
  have hfacts : ∀ e ∈ under k c.elements, e.1.key = k ∧ e.2.Sound ∧
      (ρ.heeds e.1.key = true → e.1.Unmarked) ∧ Ordinary (ρ.child e.1.key) e.2 := by
    intro e he
    obtain ⟨he, hkey⟩ := List.mem_filter.1 he
    have hkey := beq_iff_eq.1 hkey
    have hknown : ρ.knows e.1.key = true := by
      rw [hkey, ← fits, hslot]
      rfl
    exact ⟨hkey, (hs.element he).2, (ho.element e he).1, (ho.element e he).2.1 hknown⟩
  apply ((List.forall₂_and_left _ _).2 ⟨hfacts, h.ofKey hρ fits hreg hslot⟩).imp
  rintro e e' ⟨⟨hkey, hsound, hmark, hord⟩, hpair⟩
  exact ⟨hkey, hpair, hsound, hmark, hord⟩

theorem Gives.unknown {parent : Tag} {es : List (Tag × Content)} {vs : List α} {k : String}
    (h : schema.Gives keyOf parent es vs) (hk : schema.slot k = none) :
    vs.filter (keyOf · == k) = [] := by
  apply List.filter_eq_nil_iff.2
  intro v hv hkey
  have hknown := h.known v hv
  rw [beq_iff_eq.1 hkey, hk] at hknown
  cases hknown

theorem children_alike (hk : schema.Keyed keyOf) (hρ : ρ.isOpen = true) (fits : Fits ρ schema)
    {V : α → α → Prop} (follows : ∀ k slot, schema.slot k = some slot →
      ∀ e e', e.1.key = k → Twin ρ e e' → Follows ρ V slot e e')
    {place place' : Place} (hp : ρ.minds = true → place.parent.Unmarked)
    (hp' : ρ.minds = true → place'.parent.Unmarked)
    {seen : List String} {c c' : Content} (hs : c.Sound) (ho : Ordinary ρ c) (h : Alike ρ c c')
    {vs : List α} (hv : schema.children place seen c = .ok vs) :
    ∃ vs', schema.children place' seen c' = .ok vs' ∧
      ∀ k, List.Forall₂ V (vs.filter (keyOf · == k)) (vs'.filter (keyOf · == k)) := by
  obtain ⟨hreg, hgiv⟩ := Schema.children_gives hk hs hv
  have htwin := @Alike.twins _ _ _ _ _ _ h hρ fits hs ho hreg
  have hread : ∀ e' ∈ c'.elements, ∀ slot, schema.slot e'.1.key = some slot → ∀ ahead,
      ∃ v', slot.read ⟨place'.parent, ahead⟩ (.element e'.1 e'.2) = .ok v' := by
    intro e' he' slot hslot ahead
    obtain ⟨e, v, ⟨hkey, ht⟩, a, hv⟩ := forall₂_partner (htwin hslot) (hgiv.read _ _ hslot) e'
      (List.mem_filter.2 ⟨he', beq_self_eq_true _⟩)
    obtain ⟨v', hv', _⟩ := follows _ _ hslot e e' hkey ht ⟨place.parent, a⟩ ⟨place'.parent, ahead⟩
      hp hp' v hv
    exact ⟨v', hv'⟩
  have hs' := h.sound hs
  have hreg' := forall₂_regular hreg fun _ _ hslot => h.ofKey hρ fits hreg hslot
  have hvs' : ∃ vs', schema.children place' seen c' = .ok vs' :=
    Schema.children_succeeds hk hs' hreg' hread
  obtain ⟨vs', hvs'⟩ := hvs'
  refine ⟨vs', hvs', ?_⟩
  obtain ⟨_, hgiv'⟩ := Schema.children_gives hk hs' hvs'
  intro k
  cases hslot : schema.slot k with
  | none =>
    rw [Gives.unknown hgiv hslot, Gives.unknown hgiv' hslot]
    exact .nil
  | some slot =>
    apply forall₂_square (htwin hslot) (hgiv.read k slot hslot) (hgiv'.read k slot hslot)
    rintro e e' v w ⟨hkey, ht⟩ ⟨a, hv⟩ ⟨a', hw⟩
    obtain ⟨v', hv', hvv⟩ := follows _ _ hslot e e' hkey ht ⟨place.parent, a⟩ ⟨place'.parent, a'⟩
      hp hp' v hv
    rw [hv'] at hw
    cases hw
    exact hvv

end Records

end DialectBindings.Definition
