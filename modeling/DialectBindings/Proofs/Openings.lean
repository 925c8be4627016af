import DialectBindings.Proofs.Elements
import Mathlib.Data.List.TakeWhile

/-!
# Tags that are open

The events of a text say which elements are open behind it, each with the tag that opened it. Between
a start tag that is still open and a place stand texts and whole elements only.
-/

set_option autoImplicit false

namespace DialectBindings.Markup
open Results

def Event.open (e : Event) (tags : List Tag) : List Tag :=
  match e with
  | .opening tag => tag :: tags
  | .closing _ => tags.tail
  | .text _ => tags

/-- The tags that are open behind events, the latest of which comes first. -/
def openTags (tags : List Tag) (es : List Event) : List Tag := es.foldr Event.open tags

def stackOf (tags : List Tag) : Open := tags.map fun tag => (tag.name, tag.scope)

theorem openTags_append (tags : List Tag) (es fs : List Event) :
    openTags tags (es ++ fs) = openTags (openTags tags fs) es := List.foldr_append

theorem stackOf_enter {tags : List Tag} {next : Open} {t : Token} {es : List Event}
    (he : Reading.enter ⟨[], stackOf tags⟩ t = .ok ⟨es, next⟩) :
    stackOf (openTags tags es) = next := by
  cases t with
  | opening text isEmpty => cases isEmpty <;> cases he <;> rfl
  | closing name =>
    cases tags with
    | nil => cases he
    | cons tag tags =>
      simp only [Reading.enter, stackOf, List.map_cons] at he
      split at he
      · cases he
        rfl
      · cases he
  | text s =>
    cases he
    rfl
  | reference name =>
    cases he
    rfl

theorem Reads.stackOf {tags : List Tag} {s : List Char} {es : List Event} {next : Open}
    (h : Reads (stackOf tags) s es next) : stackOf (openTags tags es) = next := by
  induction hn : s.length using Nat.strongRecOn generalizing tags s es with
  | ind n ih =>
    subst hn
    rcases h.cases with ⟨_, rfl, rfl⟩ | ⟨left, hh, hleft⟩ |
      ⟨t, left, first, mid, later, hh, he, hleft, rfl⟩
    · rfl
    · exact ih _ (head_length (by rw [hh]; rfl)) hleft rfl
    · have hmid := stackOf_enter he
      rw [← hmid] at hleft
      rw [openTags_append]
      exact ih _ (head_length (by rw [hh]; rfl)) hleft rfl

def Event.isText : Event → Bool
  | .text _ => true
  | _ => false

theorem onlyTexts_takeWhile (es : List Event) : OnlyTexts (es.takeWhile Event.isText) := by
  intro e he
  have htext := List.mem_takeWhile_imp he
  cases e with
  | text value => exact ⟨value, rfl⟩
  | opening tag => cases htext
  | closing outer => cases htext

theorem OnlyTexts.front {es : List Event} (h : OnlyTexts es) :
    es = [] ∨ ∃ v, ∀ l : Levels, (l.behind es).level 0 = (l.level 0).prepend v := by
  induction es with
  | nil => exact .inl rfl
  | cons e es ih =>
    obtain ⟨⟨v, rfl⟩, hmore⟩ := List.forall_mem_cons.1 h
    rcases ih hmore with rfl | ⟨w, hw⟩
    · exact .inr ⟨v, fun l => Levels.text_level_zero l v⟩
    · refine .inr ⟨do return (← w) ++ (← v), fun l => ?_⟩
      rw [Levels.behind_cons, hw, Levels.text_level_zero, Content.prepend_prepend]

theorem Content.scopeAhead_prepend (c : Content) (v : Except Fault (List Char)) (outer : Scope) :
    (c.prepend v).scopeAhead outer = outer := by
  cases c <;> rfl

/-- The events behind a start tag that is still open, the latest first. -/
inductive Within : List Event → Prop
  | nil : Within []
  | text (value : Except Fault (List Char)) {es : List Event} (h : Within es) :
      Within (.text value :: es)
  | element (tag : Tag) (outer : Scope) {inner es : List Event} (inside : Within inner)
      (h : Within es) : Within (.closing outer :: (inner ++ .opening tag :: es))

theorem exists_opening {es : List Event} {tag : Tag} {tags : List Tag}
    (h : openTags [] es = tag :: tags) :
    ∃ inner earlier, es = inner ++ .opening tag :: earlier ∧ Within inner ∧
      openTags [] earlier = tags := by
  induction hn : es.length using Nat.strongRecOn generalizing es tag tags with
  | ind n ih =>
    subst hn
    cases es with
    | nil => cases h
    | cons e es =>
      cases e with
      | opening first =>
        obtain ⟨rfl, rfl⟩ := List.cons.inj h
        exact ⟨[], es, rfl, .nil, rfl⟩
      | text value =>
        have hes : openTags [] es = tag :: tags := h
        obtain ⟨inner, earlier, rfl, hinner, hopen⟩ := ih _ (Nat.lt_succ_self _) hes rfl
        exact ⟨.text value :: inner, earlier, rfl, .text value hinner, hopen⟩
      | closing outer =>
        -- The end tag belongs to the element that was opened last before it.
        obtain ⟨child, hchild⟩ : ∃ child, openTags [] es = child :: tag :: tags := by
          have htail : (openTags [] es).tail = tag :: tags := h
          cases ho : openTags [] es with
          | nil =>
            rw [ho] at htail
            cases htail
          | cons child more =>
            rw [ho] at htail
            exact ⟨child, by rw [← htail]; rfl⟩
        obtain ⟨inside, before, rfl, hinside, hbefore⟩ := ih _ (Nat.lt_succ_self _) hchild rfl
        have hless : before.length < (Event.closing outer :: (inside ++ .opening child :: before)).length := by
          simp only [List.length_cons, List.length_append]
          omega
        obtain ⟨inner, earlier, rfl, hinner, hopen⟩ := ih _ hless hbefore rfl
        exact ⟨.closing outer :: (inside ++ .opening child :: inner), earlier, by simp,
          .element child outer hinside hinner, hopen⟩

theorem Balanced.append {es fs : List Event} (h : Balanced es)
    (h' : Balanced fs) : Balanced (es ++ fs) := by
  induction h with
  | nil => exact h'
  | text value rest ih => exact .text value ih
  | element tag outer inside rest _ ih =>
    rw [List.cons_append, List.append_assoc, List.cons_append]
    exact .element tag outer inside ih

namespace Within
variable {es : List Event}

theorem balanced (h : Within es) : Balanced es.reverse := by
  induction h with
  | nil => exact .nil
  | text value h ih =>
    rw [List.reverse_cons]
    exact ih.append (.text value .nil)
  | @element tag outer inner es inside h ihi ih =>
    have hback : (Event.closing outer :: (inner ++ .opening tag :: es)).reverse =
        es.reverse ++ (.opening tag :: (inner.reverse ++ .closing outer :: [])) := by simp
    rw [hback]
    exact ih.append (.element tag outer ihi .nil)

theorem level_succ (h : Within es) (l : Levels) (n : Nat) :
    (l.behind es).level (n + 1) = l.level (n + 1) := by
  have hl := h.balanced.level_succ l n
  rwa [List.reverse_reverse] at hl

/-- An element in front of a content. What is inside it does not depend on what follows, but for
bindings at end tags. -/
theorem around (h : Within es) (tag : Tag) (outer : Scope) :
    ∃ inner : Levels → Content, (∀ l l', (inner l).erase = (inner l').erase) ∧
      ∀ l : Levels, (l.behind (.closing outer :: (es ++ [.opening tag]))).level 0 =
        .element tag (inner l) (l.level 0) := by
  refine ⟨fun l => ((l.before (.closing outer)).behind es).level 0, ?_, ?_⟩
  · intro l l'
    have hclosed : ((l.before (.closing outer)).level 0).erase =
        ((l'.before (.closing outer)).level 0).erase := by
      rw [Levels.closing_level_zero, Levels.closing_level_zero]
      rfl
    have hlevel := h.balanced.level_zero hclosed
    rwa [List.reverse_reverse] at hlevel
  · intro l
    have hevents : Event.closing outer :: (es ++ [.opening tag]) =
        elementEvents tag outer es.reverse := by rw [elementEvents, List.reverse_reverse]
    rw [hevents, (Levels.element_levels l tag outer h.balanced.level_succ).1, List.reverse_reverse]

/-- What holds of the contents at two places holds of those in front of the same events, if it
passes to what has the same text in front, or the same element. -/
theorem lift {R : Content → Content → Prop} (h : Within es)
    (text : ∀ v c c', R c c' → R (c.prepend v) (c'.prepend v))
    (element : ∀ tag inner inner' c c', inner.erase = inner'.erase → R c c' →
      R (.element tag inner c) (.element tag inner' c'))
    {l l' : Levels} (hl : R (l.level 0) (l'.level 0)) :
    R ((l.behind es).level 0) ((l'.behind es).level 0) := by
  induction h generalizing l l' with
  | nil => exact hl
  | text value h ih =>
    rw [Levels.behind_cons, Levels.behind_cons]
    apply ih
    rw [Levels.text_level_zero, Levels.text_level_zero]
    exact text value _ _ hl
  | @element tag outer inner es inside h ihi ih =>
    obtain ⟨content, hsame, hlevel⟩ := inside.around tag outer
    have hsplit : Event.closing outer :: (inner ++ .opening tag :: es) =
        (.closing outer :: (inner ++ [.opening tag])) ++ es := by simp
    rw [hsplit, Levels.behind_append, Levels.behind_append]
    apply ih
    rw [hlevel, hlevel]
    exact element tag _ _ _ _ (hsame l l') hl

theorem dropWhile (h : Within es) : Within (es.dropWhile Event.isText) := by
  induction h with
  | nil => exact .nil
  | text value h ih => exact ih
  | element tag outer inside h => exact .element tag outer inside h

end Within

end DialectBindings.Markup
