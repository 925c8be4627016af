import DialectBindings.Markup.Record
import DialectBindings.Proofs.Readings
import DialectBindings.Proofs.Results

/-!
# Contents of a text in parts

Behind every place of a text there is what is left of the element that the place is in, and of
each element around it. An event in front of the place changes the innermost of these, opens one
or puts two together. Whatever is closed at its end is closed all the way down.
-/

set_option autoImplicit false

namespace DialectBindings.Markup
open Text

namespace Levels

def level (l : Levels) (n : Nat) : Content := l.known.getD n l.bottom

theorem top_eq (l : Levels) : l.top = l.level 0 := by
  obtain ⟨known, bottom⟩ := l
  cases known <;> rfl

@[simp] theorem level_push_zero (l : Levels) (c : Content) : (l.push c).level 0 = c := rfl

@[simp] theorem level_push_succ (l : Levels) (c : Content) (n : Nat) :
    (l.push c).level (n + 1) = l.level n := by
  simp [push, level]

@[simp] theorem level_below (l : Levels) (n : Nat) : l.below.level n = l.level (n + 1) := by
  obtain ⟨known, bottom⟩ := l
  cases known <;> simp [below, level]

@[simp] theorem level_unknown (c : Content) (n : Nat) : (Levels.mk [] c).level n = c := rfl

@[simp] theorem text_level_zero (l : Levels) (v : Except Fault (List Char)) :
    (l.before (.text v)).level 0 = (l.level 0).prepend v := by
  simp [before, top_eq]

@[simp] theorem text_level_succ (l : Levels) (v : Except Fault (List Char)) (n : Nat) :
    (l.before (.text v)).level (n + 1) = l.level (n + 1) := by
  simp [before]

@[simp] theorem closing_level_zero (l : Levels) (outer : Scope) :
    (l.before (.closing outer)).level 0 = .closed ((l.level 0).scopeAhead outer) := by
  simp [before, top_eq]

@[simp] theorem closing_level_succ (l : Levels) (outer : Scope) (n : Nat) :
    (l.before (.closing outer)).level (n + 1) = l.level n := by
  simp [before]

@[simp] theorem opening_level_zero (l : Levels) (tag : Tag) :
    (l.before (.opening tag)).level 0 = .element tag (l.level 0) (l.level 1) := by
  simp [before, top_eq]

@[simp] theorem opening_level_succ (l : Levels) (tag : Tag) (n : Nat) :
    (l.before (.opening tag)).level (n + 1) = l.level (n + 2) := by
  simp [before]

def behind (l : Levels) (es : List Event) : Levels := es.foldl before l

theorem behind_append (l : Levels) (es fs : List Event) :
    l.behind (es ++ fs) = (l.behind es).behind fs := List.foldl_append

/-- The contents at the head of a text inside elements that are open. -/
def ofText (o : Open) (s : List Char) : Levels :=
  let (reading, stop) := Reading.run ⟨[], o⟩ s
  let bottom := match stop with
    | none => Content.ended
    | some fault => .failed fault
  (Levels.mk [] bottom).behind reading.events

theorem ofChars_eq (s : List Char) : Content.ofChars s = (ofText [] s).level 0 :=
  top_eq (ofText [] s)

end Levels

/-- A text inside elements that are open is read to its end: its events, the latest first, and
the elements that are open then. -/
def Reads (o : Open) (s : List Char) (es : List Event) (next : Open) : Prop :=
  Reading.run ⟨[], o⟩ s = (⟨es, next⟩, none)

theorem Reads.ofText {o next : Open} {s : List Char} {es : List Event} (h : Reads o s es next)
    (after : List Char) :
    Levels.ofText o (s ++ after) = (Levels.ofText next (Reading.rest s after)).behind es := by
  have hrun := Reading.run_append h after
  rw [Reading.run_events es next] at hrun
  unfold Levels.ofText
  rw [hrun]
  exact Levels.behind_append ..

end DialectBindings.Markup
