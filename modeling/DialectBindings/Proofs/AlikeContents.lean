import DialectBindings.Proofs.ContentLevels
import DialectBindings.Proofs.Records
import DialectBindings.Proofs.Roles

/-!
# Contents that are read alike

A content may differ from another in its texts, in children that its role does not know, in an
attribute that the role of a child does not know, and in the order of children where their order
does not count. The relation is closed under the events in front of a place, so that it holds of
whole documents that differ in one place.
-/

set_option autoImplicit false

namespace DialectBindings.Markup
open Text

namespace Content

/-- A content without the bindings at its end tags. -/
def erase : Content → Content
  | .closed _ => .closed []
  | .text value rest => .text value rest.erase
  | .element tag inner rest => .element tag inner.erase rest.erase
  | c => c

theorem erase_prepend (v : Except Fault (List Char)) (c : Content) :
    (c.prepend v).erase = c.erase.prepend v := by
  cases c <;> rfl

theorem sound_erase {c : Content} : c.erase.Sound ↔ c.Sound := by
  induction c with
  | closed next => exact Iff.rfl
  | ended => exact Iff.rfl
  | failed fault => exact Iff.rfl
  | text value rest ih => exact and_congr_right fun _ => ih
  | element tag inner rest ihi ihr => exact and_congr_right fun _ => and_congr ihi ihr

theorem sound_prepend {v : Except Fault (List Char)} {c : Content} :
    (c.prepend v).Sound ↔ (∃ s, v = .ok s) ∧ c.Sound := by
  constructor
  · intro h
    cases c with
    | text after rest =>
      obtain ⟨⟨s, hs⟩, h⟩ := h
      cases v with
      | error fault => cases hs
      | ok t =>
        cases after with
        | error fault => cases hs
        | ok u => exact ⟨⟨t, rfl⟩, ⟨u, rfl⟩, h⟩
    | closed next => exact h
    | ended => exact h
    | failed fault => exact h
    | element tag inner rest => exact h
  · rintro ⟨⟨s, rfl⟩, h⟩
    exact h.prepend s

def prependAll (vs : List (Except Fault (List Char))) (c : Content) : Content :=
  vs.foldl (fun c v => c.prepend v) c

theorem elements_prependAll (vs : List (Except Fault (List Char))) (c : Content) :
    (c.prependAll vs).elements = c.elements := by
  induction vs generalizing c with
  | nil => rfl
  | cons v vs ih =>
    show ((c.prepend v).prependAll vs).elements = _
    rw [ih, elements_prepend]

theorem sound_prependAll {vs : List (Except Fault (List Char))} {c : Content} :
    (c.prependAll vs).Sound ↔ (∀ v ∈ vs, ∃ s, v = .ok s) ∧ c.Sound := by
  induction vs generalizing c with
  | nil => simp [prependAll]
  | cons v vs ih =>
    show ((c.prepend v).prependAll vs).Sound ↔ _
    rw [ih, sound_prepend, List.forall_mem_cons]
    tauto

end Content

end DialectBindings.Markup

namespace DialectBindings.Definition
open Markup

/-- The attributes with at most one more, which has no prefix and no key of the role. -/
inductive Widened (ρ : Role) :
    List (Except Markup.Fault Attribute) → List (Except Markup.Fault Attribute) → Prop
  | same (as : List (Except Markup.Fault Attribute)) : Widened ρ as as
  | more (as bs : List (Except Markup.Fault Attribute)) (a : Attribute)
      (plain : (splitName a.name).1 = none) (unknown : ρ.knows a.key = false) :
      Widened ρ (as ++ bs) (as ++ .ok a :: bs)

/-- A tag of an element of a role with at most one more attribute. -/
structure Retagged (ρ : Role) (tag tag' : Tag) : Prop where
  name : tag'.name = tag.name
  sound : tag.fault = none → tag'.fault = none
  attributes : Widened ρ tag.attributes tag'.attributes

theorem Retagged.refl (ρ : Role) (tag : Tag) : Retagged ρ tag tag := ⟨rfl, id, .same _⟩

theorem Retagged.key {ρ : Role} {tag tag' : Tag} (h : Retagged ρ tag tag') : tag'.key = tag.key :=
  Schema.key_eq h.name

inductive Alike : Role → Content → Content → Prop
  | same (ρ : Role) {c c' : Content} (h : c.erase = c'.erase) : Alike ρ c c'
  | text {ρ : Role} {c c' : Content} (v : Except Markup.Fault (List Char)) (h : Alike ρ c c') :
      Alike ρ (c.prepend v) (c'.prepend v)
  | less {ρ : Role} {c c' : Content} (hρ : ρ.isOpen = true) (s : List Char) (h : Alike ρ c c') :
      Alike ρ (c.prepend (.ok s)) c'
  | more {ρ : Role} {c c' : Content} (hρ : ρ.isOpen = true) (s : List Char) (h : Alike ρ c c') :
      Alike ρ c (c'.prepend (.ok s))
  | element {ρ : Role} {tag tag' : Tag} {inner inner' c c' : Content}
      (hρ : ρ.isLeaf = false) (tags : Retagged (ρ.child tag.key) tag tag')
      (inside : Alike (ρ.child tag.key) inner inner') (h : Alike ρ c c') :
      Alike ρ (.element tag inner c) (.element tag' inner' c')
  | insert {ρ : Role} {tag : Tag} {inner c c' : Content} (hρ : ρ.isOpen = true)
      (unknown : ρ.knows tag.key = false) (hf : tag.fault = none) (hs : inner.Sound)
      (h : Alike ρ c c') : Alike ρ c (.element tag inner c')
  | swap {ρ : Role} {a b : Tag} {i i' j j' c c' : Content} (hρ : ρ.isUnordered = true)
      (names : a.name ≠ b.name) (hi : i.erase = i'.erase) (hj : j.erase = j'.erase)
      (vs : List (Except Markup.Fault (List Char))) (h : Alike ρ c c') :
      Alike ρ (.element a i ((Content.element b j c).prependAll vs))
        (.element b j' ((Content.element a i' c').prependAll vs))

namespace Alike

theorem refl (ρ : Role) (c : Content) : Alike ρ c c := .same ρ rfl

theorem closed {ρ : Role} {c c' : Content} (h : Alike ρ c c') (hρ : ρ.isLeaf = true) :
    c.erase = c'.erase := by
  have absurd_open : ∀ {σ : Role}, σ.isLeaf = true → σ.isOpen = true → False := by
    intro σ hl ho
    rw [Role.isLeaf_of_isOpen ho] at hl
    cases hl
  induction h with
  | same ρ h => exact h
  | text v h ih => rw [Content.erase_prepend, Content.erase_prepend, ih hρ]
  | less ho s h ih => exact (absurd_open hρ ho).elim
  | more ho s h ih => exact (absurd_open hρ ho).elim
  | element hl tags inside h =>
    rw [hl] at hρ
    cases hρ
  | insert ho unknown hf hs h ih => exact (absurd_open hρ ho).elim
  | swap hu names hi hj vs h ih => exact (absurd_open hρ (Role.isOpen_of_isUnordered hu)).elim

theorem cons {ρ : Role} {tag : Tag} {inner inner' c c' : Content}
    (inside : Alike (ρ.child tag.key) inner inner') (h : Alike ρ c c') :
    Alike ρ (.element tag inner c) (.element tag inner' c') := by
  cases hρ : ρ.isLeaf with
  | false => exact .element hρ (.refl _ _) inside h
  | true =>
    rw [Role.child_of_isLeaf hρ] at inside
    apply Alike.same
    rw [Content.erase, inside.closed rfl, h.closed hρ]
    rfl

theorem sound {ρ : Role} {c c' : Content} (h : Alike ρ c c') : c.Sound → c'.Sound := by
  induction h with
  | same ρ h => 
    intro hc
    rwa [← Content.sound_erase, ← h, Content.sound_erase]
  | text v h ih => 
    intro hc
    rw [Content.sound_prepend] at hc ⊢
    exact ⟨hc.1, ih hc.2⟩
  | less ho s h ih => exact fun hc => ih (Content.sound_prepend.1 hc).2
  | more ho s h ih => exact fun hc => (ih hc).prepend s
  | element ho tags inside h ihi ih => exact fun hc => ⟨tags.sound hc.1, ihi hc.2.1, ih hc.2.2⟩
  | insert ho unknown hf hs h ih => exact fun hc => ⟨hf, hs, ih hc⟩
  | swap ho names hi hj vs h ih =>
    rintro ⟨ha, hsi, hc⟩
    obtain ⟨hvs, hb, hsj, hc⟩ := Content.sound_prependAll.1 hc
    rw [← Content.sound_erase, hi, Content.sound_erase] at hsi
    rw [← Content.sound_erase, hj, Content.sound_erase] at hsj
    exact ⟨hb, hsj, Content.sound_prependAll.2 ⟨hvs, ha, hsi, ih hc⟩⟩

end Alike

structure Paired (ρ : Role) (e e' : Tag × Content) : Prop where
  tags : Retagged (ρ.child e.1.key) e.1 e'.1
  inside : Alike (ρ.child e.1.key) e.2 e'.2

theorem paired_erase {ρ : Role} {c c' : Content} (h : c.erase = c'.erase) (p : String → Bool) :
    List.Forall₂ (Paired ρ) (c.elements.filter (p ·.1.key)) (c'.elements.filter (p ·.1.key)) := by
  induction c generalizing c' with
  | closed next => cases c' <;> first | exact .nil | cases h
  | ended => cases c' <;> first | exact .nil | cases h
  | failed fault => cases c' <;> first | exact .nil | cases h
  | text value rest ih =>
    cases c' with
    | text value' rest' =>
      simp only [Content.erase, Content.text.injEq] at h
      have hrest := ih h.2
      exact hrest
    | _ => cases h
  | element tag inner rest _ ih =>
    cases c' with
    | element tag' inner' rest' =>
      simp only [Content.erase, Content.element.injEq] at h
      obtain ⟨rfl, hi, hr⟩ := h
      rw [Content.elements, Content.elements, List.filter_cons, List.filter_cons]
      split
      · exact .cons ⟨.refl _ _, .same _ hi⟩ (ih hr)
      · exact ih hr
    | _ => cases h

theorem Alike.paired {ρ : Role} {c c' : Content} (h : Alike ρ c c') (hρ : ρ.isOpen = true)
    (p : String → Bool) (known : ∀ k, p k = true → ρ.knows k = true)
    (named : ρ.isUnordered = true → ∀ e ∈ c.elements, ∀ f ∈ c.elements,
      p e.1.key = true → p f.1.key = true → e.1.name = f.1.name) :
    List.Forall₂ (Paired ρ) (c.elements.filter (p ·.1.key)) (c'.elements.filter (p ·.1.key)) := by
  induction h with
  | same ρ h => exact paired_erase h p
  | text v h ih =>
    rw [Content.elements_prepend] at named ⊢
    rw [Content.elements_prepend]
    exact ih hρ known named
  | less ho s h ih =>
    rw [Content.elements_prepend] at named ⊢
    exact ih hρ known named
  | more ho s h ih =>
    rw [Content.elements_prepend]
    exact ih hρ known named
  | element ho tags inside h _ ih =>
    have hrest := ih hρ known fun hu e he f hf =>
      named hu e (List.mem_cons_of_mem _ he) f (List.mem_cons_of_mem _ hf)
    rw [Content.elements, Content.elements, List.filter_cons, List.filter_cons, tags.key]
    split
    · exact .cons ⟨tags, inside⟩ hrest
    · exact hrest
  | @insert ρ tag inner c c' ho unknown hf hs h ih =>
    have hp : ¬ p tag.key = true := by
      intro hp
      rw [known _ hp] at unknown
      cases unknown
    rw [Content.elements, List.filter_cons, if_neg hp]
    exact ih hρ known named
  | @swap ρ a b i i' j j' c c' ho names hi hj vs h ih =>
    simp only [Content.elements, Content.elements_prependAll] at named ⊢
    have hrest := ih hρ known fun hu e he f hf =>
      named hu e (List.mem_cons_of_mem _ (List.mem_cons_of_mem _ he)) f
        (List.mem_cons_of_mem _ (List.mem_cons_of_mem _ hf))
    have hnot : ¬ (p a.key = true ∧ p b.key = true) := by
      rintro ⟨ha, hb⟩
      exact names (named ho (a, i) (by simp) (b, j) (by simp) ha hb)
    simp only [List.filter_cons]
    by_cases ha : p a.key = true
    · rw [if_pos ha, if_neg fun hb => hnot ⟨ha, hb⟩, if_neg fun hb => hnot ⟨ha, hb⟩, if_pos ha]
      exact .cons ⟨.refl _ _, .same _ hi⟩ hrest
    · rw [if_neg ha, if_neg ha]
      split
      · exact .cons ⟨.refl _ _, .same _ hj⟩ hrest
      · exact hrest

end DialectBindings.Definition
