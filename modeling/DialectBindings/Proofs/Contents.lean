import DialectBindings.Markup.Record
import DialectBindings.Proofs.Results

/-!
# Sound contents

A content is sound if all of its elements are closed, no tag of it binds a reserved prefix or
namespace, and all of its references stand for characters. Nothing in such a content is refused
when it is passed over or put aside.
-/

set_option autoImplicit false

namespace DialectBindings.Markup
open Results

namespace Content

def elements : Content → List (Tag × Content)
  | .text _ rest => rest.elements
  | .element tag inner rest => (tag, inner) :: rest.elements
  | _ => []

def Sound : Content → Prop
  | .closed _ => True
  | .text value rest => (∃ s, value = .ok s) ∧ rest.Sound
  | .element tag inner rest => tag.fault = none ∧ inner.Sound ∧ rest.Sound
  | _ => False

instance decidableSound : (c : Content) → Decidable c.Sound
  | .closed _ => isTrue trivial
  | .ended => isFalse id
  | .failed _ => isFalse id
  | .text (.error _) _ => isFalse fun h => nomatch h.1
  | .text (.ok s) rest =>
    have := decidableSound rest
    decidable_of_iff rest.Sound ⟨fun h => ⟨⟨s, rfl⟩, h⟩, fun h => h.2⟩
  | .element tag inner rest =>
    have := decidableSound inner
    have := decidableSound rest
    inferInstanceAs (Decidable (tag.fault = none ∧ inner.Sound ∧ rest.Sound))

theorem Sound.element {c inner : Content} {tag : Tag} (h : c.Sound)
    (he : (tag, inner) ∈ c.elements) : tag.fault = none ∧ inner.Sound := by
  induction c with
  | closed next => cases he
  | ended => cases he
  | failed fault => cases he
  | text value rest ih => exact ih h.2 he
  | element first content rest _ ih =>
    rcases List.mem_cons.1 he with he | he
    · cases he
      exact ⟨h.1, h.2.1⟩
    · exact ih h.2.2 he

theorem check_sound {tag : Tag} (h : tag.fault = none) : tag.check = .ok () := by
  rw [Tag.check, h]

theorem Sound.checkWhole {c : Content} (h : c.Sound) (name : List Char) :
    c.checkWhole name = .ok () := by
  induction c with
  | closed next => rfl
  | ended => exact absurd h id
  | failed fault => exact absurd h id
  | text value rest ih => exact ih h.2
  | element tag inner rest ihi ihr =>
    rw [Content.checkWhole, ihi h.2.1, ok_bind]
    exact ihr h.2.2

theorem Sound.checkAside {c : Content} (h : c.Sound) (name : List Char) :
    c.checkAside name = .ok () := by
  induction c with
  | closed next => rfl
  | ended => exact absurd h id
  | failed fault => exact absurd h id
  | text value rest ih =>
    obtain ⟨⟨s, rfl⟩, h⟩ := h
    rw [Content.checkAside, ok_bind]
    exact ih h
  | element tag inner rest ihi ihr =>
    rw [Content.checkAside, check_sound h.1, ok_bind, ihi h.2.1, ok_bind]
    exact ihr h.2.2

theorem Sound.passOver {inner : Content} (h : inner.Sound) (tag : Tag) :
    passOver tag inner = .ok () := by
  cases inner with
  | element first content rest =>
    show (first.check >>= fun _ => (Content.element first content rest).checkWhole tag.name) = _
    rw [check_sound h.1, ok_bind]
    exact Sound.checkWhole h tag.name
  | closed next => rfl
  | ended => exact absurd h id
  | failed fault => exact absurd h id
  | text value rest => exact Sound.checkWhole h tag.name

theorem prepend_prepend (c : Content) (v w : Except Fault (List Char)) :
    (c.prepend w).prepend v = c.prepend (do return (← v) ++ (← w)) := by
  cases c with
  | text after rest =>
    cases v <;> cases w <;> cases after <;> simp [prepend, bind, Except.bind, pure, Except.pure]
  | _ => rfl

@[simp] theorem elements_prepend (v : Except Fault (List Char)) (c : Content) :
    (c.prepend v).elements = c.elements := by
  cases c <;> rfl

theorem Sound.prepend {c : Content} (h : c.Sound) (s : List Char) :
    (c.prepend (.ok s)).Sound := by
  cases c with
  | text value rest =>
    obtain ⟨⟨t, rfl⟩, h⟩ := h
    exact ⟨⟨s ++ t, rfl⟩, h⟩
  | closed next => exact ⟨⟨s, rfl⟩, trivial⟩
  | ended => exact absurd h id
  | failed fault => exact absurd h id
  | element tag inner rest => exact ⟨⟨s, rfl⟩, h⟩

end Content

end DialectBindings.Markup
