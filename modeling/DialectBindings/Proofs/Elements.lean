import DialectBindings.Proofs.Places

/-!
# Elements in a text

A text that opens one element and closes it at its end adds that element to whatever follows. What
is inside the element is the same wherever the text stands, but for the bindings behind end tags.
-/

set_option autoImplicit false

namespace DialectBindings.Markup
open Text

/-- Events in the order of reading, with an end tag for each start tag. -/
inductive Balanced : List Event → Prop
  | nil : Balanced []
  | text (value : Except Fault (List Char)) {es : List Event} (rest : Balanced es) :
      Balanced (.text value :: es)
  | element (tag : Tag) (outer : Scope) {inner es : List Event} (inside : Balanced inner)
      (rest : Balanced es) : Balanced (.opening tag :: (inner ++ .closing outer :: es))

/-- An event that is no fault: a reference stands for a character, and a tag binds no reserved
prefix or namespace. -/
def Event.Clean : Event → Prop
  | .opening tag => tag.fault = none
  | .closing _ => True
  | .text value => ∃ s, value = .ok s

def elementEvents (tag : Tag) (outer : Scope) (inner : List Event) : List Event :=
  .closing outer :: (inner.reverse ++ [.opening tag])

theorem reverse_element (tag : Tag) (outer : Scope) (inner es : List Event) :
    (Event.opening tag :: (inner ++ .closing outer :: es)).reverse =
      es.reverse ++ elementEvents tag outer inner := by
  simp [elementEvents]

namespace Levels

theorem element_levels (l : Levels) (tag : Tag) (outer : Scope) {inner : List Event}
    (hinner : ∀ (l : Levels) (n : Nat), (l.behind inner.reverse).level (n + 1) = l.level (n + 1)) :
    (l.behind (elementEvents tag outer inner)).level 0 =
        .element tag (((l.before (.closing outer)).behind inner.reverse).level 0) (l.level 0) ∧
      ∀ n, (l.behind (elementEvents tag outer inner)).level (n + 1) = l.level (n + 1) := by
  rw [elementEvents, behind_cons, behind_concat]
  constructor
  · rw [opening_level_zero, hinner, closing_level_succ]
  · intro n
    rw [opening_level_succ, hinner, closing_level_succ]

end Levels

namespace Balanced
variable {es : List Event}

theorem level_succ (h : Balanced es) (l : Levels) (n : Nat) :
    (l.behind es.reverse).level (n + 1) = l.level (n + 1) := by
  induction h generalizing l n with
  | nil => rfl
  | text value rest ih =>
    rw [List.reverse_cons, Levels.behind_concat, Levels.text_level_succ, ih]
  | @element tag outer inner es inside rest ihi ih =>
    rw [reverse_element, Levels.behind_append, (Levels.element_levels _ tag outer ihi).2, ih]

theorem level_zero (h : Balanced es) {l l' : Levels}
    (hl : (l.level 0).erase = (l'.level 0).erase) :
    ((l.behind es.reverse).level 0).erase = ((l'.behind es.reverse).level 0).erase := by
  induction h generalizing l l' with
  | nil => exact hl
  | text value rest ih =>
    rw [List.reverse_cons, Levels.behind_concat, Levels.behind_concat, Levels.text_level_zero,
      Levels.text_level_zero, Content.erase_prepend, Content.erase_prepend, ih hl]
  | @element tag outer inner es inside rest ihi ih =>
    have hclosed : ∀ m m' : Levels, ((m.before (.closing outer)).level 0).erase =
        ((m'.before (.closing outer)).level 0).erase := by
      intro m m'
      rw [Levels.closing_level_zero, Levels.closing_level_zero]
      rfl
    rw [reverse_element, Levels.behind_append, Levels.behind_append,
      (Levels.element_levels _ tag outer inside.level_succ).1,
      (Levels.element_levels _ tag outer inside.level_succ).1, Content.erase, Content.erase, ih hl,
      ihi (hclosed _ _)]

theorem sound (h : Balanced es) (hc : ∀ e ∈ es, e.Clean) {l : Levels} (hl : (l.level 0).Sound) :
    ((l.behind es.reverse).level 0).Sound := by
  induction h generalizing l with
  | nil => exact hl
  | text value rest ih =>
    obtain ⟨hv, hrest⟩ := List.forall_mem_cons.1 hc
    rw [List.reverse_cons, Levels.behind_concat, Levels.text_level_zero, Content.sound_prepend]
    exact ⟨hv, ih hrest hl⟩
  | @element tag outer inner es inside rest ihi ih =>
    obtain ⟨htag, hmore⟩ := List.forall_mem_cons.1 hc
    have hclosed : ∀ m : Levels, ((m.before (.closing outer)).level 0).Sound := by
      intro m
      rw [Levels.closing_level_zero]
      trivial
    rw [reverse_element, Levels.behind_append, (Levels.element_levels _ tag outer inside.level_succ).1]
    refine ⟨htag, ihi (fun e he => hmore e (List.mem_append_left _ he)) (hclosed _), ih ?_ hl⟩
    exact fun e he => hmore e (List.mem_append_right _ (List.mem_cons_of_mem _ he))

end Balanced

def OnlyTexts (es : List Event) : Prop := ∀ e ∈ es, ∃ value, e = .text value

theorem OnlyTexts.levels {es : List Event} (h : OnlyTexts es) :
    ∃ vs, ∀ l : Levels, (l.behind es).level 0 = (l.level 0).prependAll vs ∧
      ∀ n, (l.behind es).level (n + 1) = l.level (n + 1) := by
  induction es with
  | nil => exact ⟨[], fun l => ⟨rfl, fun n => rfl⟩⟩
  | cons e es ih =>
    obtain ⟨⟨v, rfl⟩, hmore⟩ := List.forall_mem_cons.1 h
    obtain ⟨vs, hvs⟩ := ih hmore
    refine ⟨v :: vs, ?_⟩
    intro l
    obtain ⟨hzero, hsucc⟩ := hvs (l.before (.text v))
    constructor
    · rw [Levels.behind_cons, hzero, Levels.text_level_zero]
      rfl
    · intro n
      rw [Levels.behind_cons, hsucc, Levels.text_level_succ]

/-- A text that is one element, read inside elements that are open: its tag and what it has
inside, in the order of reading. -/
structure IsElement (o : Open) (text : List Char) (tag : Tag) (inside : List Event) : Prop where
  starts : text.head? = some '<'
  ends : text.getLast? = some '>'
  balanced : Balanced inside
  reads : ∃ outer, Reads o text (elementEvents tag outer inside) o

namespace IsElement
variable {o : Open} {text : List Char} {tag : Tag} {inside : List Event}

theorem not_split (h : IsElement o text tag inside) (before : List Char) (after : List Char) :
    ¬ splitsLineEnd before (text ++ after) := by
  rintro ⟨_, hnext⟩
  have hhead : (text ++ after).head? = some '<' := by
    rw [List.head?_append, h.starts]
    rfl
  rw [hhead] at hnext
  rcases hnext with hnext | hnext <;> cases hnext

theorem not_splits (h : IsElement o text tag inside) (after : List Char) :
    ¬ splitsLineEnd text after := by
  rintro ⟨hlast, _⟩
  rw [h.ends] at hlast
  cases hlast

theorem levels (h : IsElement o text tag inside) : ∃ i₀, ∀ after, ∃ i,
    i.erase = i₀ ∧ ((∀ e ∈ inside, e.Clean) → i.Sound) ∧
    (Levels.ofText o (text ++ after)).level 0 = .element tag i ((Levels.ofText o after).level 0) ∧
    ∀ n, (Levels.ofText o (text ++ after)).level (n + 1) = (Levels.ofText o after).level (n + 1) := by
  obtain ⟨outer, hr⟩ := h.reads
  let closed : Levels := (Levels.mk [] .ended).before (.closing outer)
  have hclosed : ∀ m : Levels, ((m.before (.closing outer)).level 0).erase =
      (closed.level 0).erase := by
    intro m
    rw [Levels.closing_level_zero]
    rfl
  refine ⟨((closed.behind inside.reverse).level 0).erase, ?_⟩
  intro after
  have hlevels := hr.ofText after
  rw [Reading.rest_of_not (h.not_splits after)] at hlevels
  obtain ⟨hzero, hsucc⟩ :=
    Levels.element_levels (Levels.ofText o after) tag outer h.balanced.level_succ
  rw [← hlevels] at hzero hsucc
  refine ⟨_, h.balanced.level_zero (hclosed _), ?_, hzero, hsucc⟩
  intro hc
  apply h.balanced.sound hc
  rw [Levels.closing_level_zero]
  trivial

end IsElement

end DialectBindings.Markup
