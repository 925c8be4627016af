import DialectBindings.Proofs.AlikeContents

/-!
# Places in a document

Two texts that may follow a place are read alike if the contents behind the place are, for every
element around it. That carries over to the texts with the same text in front, and in the end to
whole documents. A well-formed element in front of a place is one more child there.
-/

set_option autoImplicit false

namespace DialectBindings.Markup
open Text

namespace Levels

theorem behind_cons (l : Levels) (e : Event) (es : List Event) :
    l.behind (e :: es) = (l.before e).behind es := rfl

theorem behind_concat (l : Levels) (es : List Event) (e : Event) :
    l.behind (es ++ [e]) = (l.behind es).before e := by
  rw [behind_append]
  rfl

theorem ofText_token {o next : Open} {s left : List Char} {t : Token} {es : List Event}
    (h : head s = .token t left) (he : Reading.enter ⟨[], o⟩ t = .ok ⟨es, next⟩) :
    ofText o s = (ofText next left).behind es := by
  unfold ofText
  rw [Reading.run_token h, he]
  dsimp only
  rw [Reading.run_events es next left]
  exact behind_append ..

theorem ofText_passed {o : Open} {s left : List Char} (h : head s = .passed left) :
    ofText o s = ofText o left := by
  unfold ofText
  rw [Reading.run_passed h]

end Levels

theorem Reads.cases {o next : Open} {s : List Char} {es : List Event} (h : Reads o s es next) :
    (s = [] ∧ es = [] ∧ next = o) ∨
      (∃ left, head s = .passed left ∧ Reads o left es next) ∨
      ∃ t left first mid later, head s = .token t left ∧
        Reading.enter ⟨[], o⟩ t = .ok ⟨first, mid⟩ ∧ Reads mid left later next ∧
        es = later ++ first := by
  unfold Reads at h
  cases hh : head s with
  | ended =>
    rw [Reading.run_ended hh] at h
    cases h
    exact .inl ⟨head_eq_ended hh, rfl, rfl⟩
  | faulty fault =>
    rw [Reading.run_faulty hh] at h
    cases h
  | passed left =>
    rw [Reading.run_passed hh] at h
    exact .inr (.inl ⟨left, rfl, h⟩)
  | token t left =>
    rw [Reading.run_token hh] at h
    cases he : Reading.enter ⟨[], o⟩ t with
    | error fault =>
      rw [he] at h
      cases h
    | ok entered =>
      obtain ⟨first, mid⟩ := entered
      rw [he] at h
      have hrun : Reading.run ⟨first, mid⟩ left = (⟨es, next⟩, none) := h
      rw [Reading.run_events] at hrun
      cases hr : Reading.run ⟨[], mid⟩ left with
      | mk reached stop =>
        rw [hr] at hrun
        cases hrun
        exact .inr (.inr ⟨t, left, first, mid, reached.events, rfl, he, hr, rfl⟩)

end DialectBindings.Markup

namespace DialectBindings.Definition
open Markup

/-- What follows a place is read alike, for the element that the place is in and for every element
around it. -/
def LevelsAlike (o : Open) (l l' : Levels) : Prop :=
  ∀ n, Alike (roleIn (o.drop n)) (l.level n) (l'.level n)

namespace LevelsAlike
variable {o : Open} {l l' : Levels}

theorem refl (o : Open) (l : Levels) : LevelsAlike o l l := fun _ => .refl _ _

theorem text (h : LevelsAlike o l l') (v : Except Markup.Fault (List Char)) :
    LevelsAlike o (l.before (.text v)) (l'.before (.text v)) := by
  intro n
  cases n with
  | zero =>
    rw [Levels.text_level_zero, Levels.text_level_zero]
    exact .text v (h 0)
  | succ n =>
    rw [Levels.text_level_succ, Levels.text_level_succ]
    exact h (n + 1)

theorem closing (h : LevelsAlike o l l') (inner : List Char × Scope) (outer : Scope) :
    LevelsAlike (inner :: o) (l.before (.closing outer)) (l'.before (.closing outer)) := by
  intro n
  cases n with
  | zero =>
    rw [Levels.closing_level_zero, Levels.closing_level_zero]
    exact .same _ rfl
  | succ n =>
    rw [Levels.closing_level_succ, Levels.closing_level_succ]
    exact h n

theorem opening {tag : Tag} {scope : Scope} (h : LevelsAlike ((tag.name, scope) :: o) l l') :
    LevelsAlike o (l.before (.opening tag)) (l'.before (.opening tag)) := by
  intro n
  cases n with
  | zero =>
    rw [Levels.opening_level_zero, Levels.opening_level_zero]
    exact .cons (h 0) (h 1)
  | succ n =>
    rw [Levels.opening_level_succ, Levels.opening_level_succ]
    exact h (n + 2)

theorem enter {t : Token} {es : List Markup.Event} {next : Open}
    (he : Reading.enter ⟨[], o⟩ t = .ok ⟨es, next⟩) (h : LevelsAlike next l l') :
    LevelsAlike o (l.behind es) (l'.behind es) := by
  cases t with
  | opening text isEmpty =>
    cases isEmpty with
    | true =>
      cases he
      exact opening (closing h (_, (Tag.ofText o.scope text).scope) _)
    | false =>
      cases he
      exact opening h
  | closing name =>
    cases o with
    | nil => cases he
    | cons first outer =>
      obtain ⟨expected, scope⟩ := first
      simp only [Reading.enter] at he
      split at he
      · cases he
        exact closing h _ _
      · cases he
  | text s =>
    cases he
    exact text h _
  | reference name =>
    cases he
    exact text h _

theorem reads {s : List Char} {es : List Markup.Event} {next : Open} (hr : Reads o s es next)
    (h : LevelsAlike next l l') : LevelsAlike o (l.behind es) (l'.behind es) := by
  induction hn : s.length using Nat.strongRecOn generalizing o s es with
  | ind n ih =>
    subst hn
    rcases hr.cases with ⟨_, rfl, rfl⟩ | ⟨left, hh, hleft⟩ |
      ⟨t, left, first, mid, later, hh, he, hleft, rfl⟩
    · exact h
    · exact ih _ (head_length (by rw [hh]; rfl)) hleft rfl
    · rw [Levels.behind_append, Levels.behind_append]
      exact enter he (ih _ (head_length (by rw [hh]; rfl)) hleft rfl)

end LevelsAlike

end DialectBindings.Definition
